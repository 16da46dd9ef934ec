import Portty.Host.Stream

/-!
# The screen is a part of the output

`View.Ok` says what a view is worth: what was shown is a part of the output, from where the snapshot
started, and if nothing was skipped and a sequence number has arrived, it ends at that number.
`Plays v frames` says that this stays so whichever of the frames arrive.

The invariant is about the frames on the way to the phone. For each session that is viewed, or of
which nothing was skipped (`Watched`):

* they play on what was shown so far;
* when the forwarder has sent everything, what is shown ends where its receiver is (`Tracks`).

`Undisturbed` are the steps that keep it. The others are: a snapshot is written past frames of the
session that are still in the queue; a delta is written for a screen that is not at its boundary any
more; a session is opened again while frames of it arrive that were skipped before; a snapshot is
taken while a chunk has a number and is not in the ring.
-/

namespace Portty

namespace Stream

open Scrollback Chunks

variable {out out' : Nat → List Bytes} {id : SessionId} {v : View} {fs gs : List Frame}
  {frame : Frame} {life n m : Nat} {s : Session}

/-! ## Views -/

/-- What was shown is a part of the output `out` of the session. -/
structure View.Ok (out : Nat → List Bytes) (v : View) : Prop where
  part : v.shown <+: (out v.generation).flatten.drop v.start
  generation : v.whole → v.lastGeneration = v.generation
  seq : v.whole → v.settled → v.lastSeq ≤ (out v.generation).length ∧
    v.start ≤ (through v.lastSeq (out v.generation)).length ∧
    v.shown = (through v.lastSeq (out v.generation)).drop v.start

/-- Nothing was skipped, and what was shown ends with the first `n` chunks of the lifetime. -/
structure View.EndsAt (out : Nat → List Bytes) (v : View) (life n : Nat) : Prop where
  whole : v.whole
  generation : v.generation = life
  le : n ≤ (out life).length
  start : v.start ≤ (through n (out life)).length
  shown : v.shown = (through n (out life)).drop v.start

theorem View.Ok.mono (h : v.Ok out) (hg : ∀ life, out life <+: out' life) : v.Ok out' := by
  obtain ⟨more, hmore⟩ := hg v.generation
  refine ⟨?_, h.generation, fun hw hs => ?_⟩
  · rw [← hmore]
    exact h.part.trans (drop_flatten_le _ _)
  · obtain ⟨hle, hstart, hshown⟩ := h.seq hw hs
    rw [← hmore, through_of_append hle, List.length_append]
    exact ⟨by omega, hstart, hshown⟩

theorem View.EndsAt.mono (h : v.EndsAt out life n) (hg : ∀ life, out life <+: out' life) :
    v.EndsAt out' life n := by
  obtain ⟨more, hmore⟩ := hg life
  have hthrough : through n (out' life) = through n (out life) := by
    rw [← hmore, through_of_append h.le]
  have hle := h.le
  refine ⟨h.whole, h.generation, ?_, hthrough ▸ h.start, hthrough ▸ h.shown⟩
  rw [← hmore, List.length_append]
  omega

@[simp] theorem View.render_screenReset (v : View) (id : SessionId) (generation start : Nat) :
    v.render id (.screenReset id generation start) =
      { v with
        lastGeneration := generation, shown := [], generation, start, whole := true,
        settled := false } :=
  if_pos rfl

@[simp] theorem View.render_output (v : View) (id : SessionId) (bytes : Bytes) :
    v.render id (.output id bytes) = { v with shown := v.shown ++ bytes } := if_pos rfl

@[simp] theorem View.render_sequencedOutput (v : View) (id : SessionId) (seq : Nat)
    (bytes : Bytes) :
    v.render id (.sequencedOutput id seq bytes) =
      { v with lastSeq := seq, shown := v.shown ++ bytes, settled := true } :=
  if_pos rfl

/-- The next chunks are shown. -/
theorem View.EndsAt.sequenced (id : SessionId) (bytes : Bytes) (hok : v.Ok out)
    (h : v.EndsAt out life n) (hn : n ≤ m) (hm : m ≤ (out life).length)
    (hb : bytes = (((out life).take m).drop n).flatten) :
    (v.render id (.sequencedOutput id m bytes)).Ok out ∧
      (v.render id (.sequencedOutput id m bytes)).EndsAt out life m := by
  have hshown : v.shown ++ bytes = (through m (out life)).drop v.start := by
    rw [through_drop_append hn h.start, ← h.shown, hb]
  have hstart : v.start ≤ (through m (out life)).length := by
    rw [through_append hn, List.length_append]
    exact Nat.le_add_right_of_le h.start
  have hgen := h.generation
  rw [View.render_sequencedOutput]
  refine ⟨⟨?_, hok.generation, fun _ _ => ?_⟩, ⟨h.whole, hgen, hm, hstart, hshown⟩⟩
  · simp only [hgen, hshown]
    exact drop_through_le _ _ _
  · simp only [hgen]
    exact ⟨hm, hstart, hshown⟩

/-- Only the core has seen the frame. -/
theorem View.Ok.skip (h : v.Ok out) (hs : frame.screen = some id) : (v.skip frame).Ok out := by
  cases frame with
  | screenReset id' generation start => exact ⟨h.part, by simp [View.skip], by simp [View.skip]⟩
  | output id' bytes => exact ⟨h.part, by simp [View.skip], by simp [View.skip]⟩
  | sequencedOutput id' seq bytes => exact ⟨h.part, by simp [View.skip], by simp [View.skip]⟩
  | sessionSize id' size => simp [Frame.screen] at hs
  | other => simp [Frame.screen] at hs

theorem View.skip_whole (hs : frame.screen = some id) : (v.skip frame).whole = false := by
  cases frame with
  | screenReset id' generation start => rfl
  | output id' bytes => rfl
  | sequencedOutput id' seq bytes => rfl
  | sessionSize id' size => simp [Frame.screen] at hs
  | other => simp [Frame.screen] at hs

/-! ## Frames that play -/

/-- The view after the frames. -/
def replay (id : SessionId) (v : View) (fs : List Frame) : View :=
  fs.foldl (fun v frame => v.render id frame) v

/-- The view is right however many of the frames arrive. -/
def Plays (out : Nat → List Bytes) (id : SessionId) (v : View) : List Frame → Prop
  | [] => v.Ok out
  | frame :: fs => v.Ok out ∧ Plays out id (v.render id frame) fs

@[simp] theorem replay_nil : replay id v [] = v := rfl

@[simp] theorem replay_cons : replay id v (frame :: fs) = replay id (v.render id frame) fs := rfl

@[simp] theorem replay_append : replay id v (fs ++ gs) = replay id (replay id v fs) gs := by
  simp [replay]

theorem Plays.ok (h : Plays out id v fs) : v.Ok out := by
  cases fs with
  | nil => exact h
  | cons frame fs => exact h.1

theorem Plays.replay_ok (h : Plays out id v fs) : (replay id v fs).Ok out := by
  induction fs generalizing v with
  | nil => exact h
  | cons frame fs ih => exact ih h.2

theorem plays_append :
    Plays out id v (fs ++ gs) ↔ Plays out id v fs ∧ Plays out id (replay id v fs) gs := by
  induction fs generalizing v with
  | nil => exact ⟨fun h => ⟨h.ok, h⟩, fun h => h.2⟩
  | cons frame fs ih =>
    rw [List.cons_append, Plays, Plays, ih, replay_cons, and_assoc]

theorem Plays.mono (h : Plays out id v fs) (hg : ∀ life, out life <+: out' life) :
    Plays out' id v fs := by
  induction fs generalizing v with
  | nil => exact View.Ok.mono h hg
  | cons frame fs ih => exact ⟨h.1.mono hg, ih h.2⟩

/-- None of the frames is about the screen of the session. -/
def Silent (id : SessionId) (fs : List Frame) : Prop := ∀ frame ∈ fs, frame.screen ≠ some id

instance : Decidable (Silent id fs) := inferInstanceAs (Decidable (∀ frame ∈ fs, _))

theorem View.render_of_ne (h : frame.screen ≠ some id) : v.render id frame = v := if_neg h

theorem Silent.replay (h : Silent id fs) : replay id v fs = v := by
  induction fs generalizing v with
  | nil => rfl
  | cons frame fs ih =>
    rw [replay_cons, View.render_of_ne (h frame List.mem_cons_self)]
    exact ih fun f hf => h f (List.mem_cons_of_mem _ hf)

theorem Silent.plays (h : Silent id fs) (hv : v.Ok out) : Plays out id v fs := by
  induction fs generalizing v with
  | nil => exact hv
  | cons frame fs ih =>
    refine ⟨hv, ?_⟩
    rw [View.render_of_ne (h frame List.mem_cons_self)]
    exact ih (fun f hf => h f (List.mem_cons_of_mem _ hf)) hv

theorem silent_append : Silent id (fs ++ gs) ↔ Silent id fs ∧ Silent id gs := by
  simp only [Silent, List.mem_append]
  exact ⟨fun h => ⟨fun f hf => h f (.inl hf), fun f hf => h f (.inr hf)⟩,
    fun h f hf => hf.elim (h.1 f) (h.2 f)⟩

/-! ## Snapshots and deltas -/

theorem plays_output (id : SessionId) (ps : List Bytes) (hok : v.Ok out) (hs : v.settled = false)
    (hp : v.shown ++ ps.flatten <+: (out v.generation).flatten.drop v.start) :
    Plays out id v (ps.map (.output id)) ∧
      replay id v (ps.map (.output id)) = { v with shown := v.shown ++ ps.flatten } := by
  induction ps generalizing v with
  | nil => exact ⟨hok, by simp⟩
  | cons bytes ps ih =>
    rw [List.flatten_cons, ← List.append_assoc] at hp
    have hok' : ({ v with shown := v.shown ++ bytes } : View).Ok out :=
      ⟨(List.prefix_append _ _).trans hp, hok.generation, fun _ h => by simp [hs] at h⟩
    obtain ⟨h₁, h₂⟩ := ih hok' hs hp
    rw [List.map_cons, Plays, replay_cons, View.render_output]
    refine ⟨⟨hok, h₁⟩, ?_⟩
    rw [h₂, List.flatten_cons, List.append_assoc]

/-- A reset and a snapshot, with the size of the terminal or without. -/
theorem plays_snapshot (gs : List Frame) (hok : v.Ok out) (hout : out life = s.out)
    (hr : Holds s.ring s.out) (hd : s.drawn = none) (hgs : Silent id gs) :
    Plays out id v (resetFrame id life s :: gs ++ snapshotFrames id s) ∧
      (replay id v (resetFrame id life s :: gs ++ snapshotFrames id s)).EndsAt out life
        s.out.length := by
  obtain ⟨v₁, hv₁⟩ : ∃ v₁, v₁ = v.render id (resetFrame id life s) := ⟨_, rfl⟩
  have hfields : v₁.shown = [] ∧ v₁.generation = life ∧ v₁.lastGeneration = life ∧
      v₁.start = s.retainedFrom ∧ v₁.whole = true ∧ v₁.settled = false := by
    rw [hv₁, resetFrame, View.render_screenReset]
    exact ⟨rfl, rfl, rfl, rfl, rfl, rfl⟩
  obtain ⟨hshown, hgen, hlast, hstart, hwhole, hsettled⟩ := hfields
  have hok₁ : v₁.Ok out :=
    ⟨by simp [hshown], fun _ => hlast.trans hgen.symm, fun _ h => by simp [hsettled] at h⟩
  have hsnap : (pieces snapshotChunkBytes s.ring.concat).flatten = s.out.flatten.drop v₁.start := by
    rw [flatten_pieces (by decide), s.concat_eq hr, hstart]
  obtain ⟨hplay, hreplay⟩ := plays_output id (pieces snapshotChunkBytes s.ring.concat)
    hok₁ hsettled
    (by simp only [hshown, List.nil_append, hsnap, hgen, hout, List.prefix_rfl])
  -- The snapshot is shown; the sequence number says that it is all of the output.
  have hends : (replay id v₁ ((pieces snapshotChunkBytes s.ring.concat).map (.output id))).EndsAt out
      life s.out.length := by
    rw [hreplay]
    refine ⟨hwhole, hgen, by rw [hout], ?_, ?_⟩
    · simp only [hout, through_length, hstart, Session.retainedFrom]
      omega
    · simp only [hout, through_length, hshown, List.nil_append, hsnap]
  have hok₂ := hplay.replay_ok
  have hseq : s.throughSeq = s.out.length := by simp [Session.throughSeq, hd]
  obtain ⟨hok₃, hends₃⟩ := hends.sequenced id [] (m := s.out.length) hok₂
    (Nat.le_refl _) (by rw [hout]) (by simp [hout])
  have hrest : Plays out id v₁ (snapshotFrames id s) ∧
      (replay id v₁ (snapshotFrames id s)).EndsAt out life s.out.length := by
    rw [snapshotFrames, plays_append, replay_append, hseq]
    exact ⟨⟨hplay, hok₂, hok₃⟩, hends₃⟩
  rw [List.cons_append, Plays, replay_cons, ← hv₁, plays_append, replay_append, hgs.replay]
  exact ⟨⟨hok, hgs.plays hok₁, hrest.1⟩, hrest.2⟩

/-- The chunks after the boundary. `merged` is what is between what was shown and the next chunk. -/
theorem plays_delta (id : SessionId) (merged : Bytes) (hout : out life = s.out) {rest : List Bytes}
    (hok : v.Ok out) (h : v.EndsAt out life n) (hn : n ≤ m) (hm : m ≤ s.out.length)
    (hmerged : merged = ((s.out.take m).drop n).flatten) (hrest : rest = s.out.drop m) :
    Plays out id v (deltaFrames id (numbered m rest) merged m) ∧
      (replay id v (deltaFrames id (numbered m rest) merged m)).EndsAt out life s.out.length := by
  induction rest generalizing v n m merged with
  | nil =>
    obtain rfl : m = s.out.length := by
      have := congrArg List.length hrest
      simp only [List.length_nil, List.length_drop] at this
      omega
    obtain ⟨hok', hends⟩ := h.sequenced id merged hok hn (by rw [hout])
      (by rw [hout, hmerged])
    simp only [numbered, deltaFrames]
    split
    · next he =>
      rw [List.isEmpty_iff.mp he] at hmerged
      refine ⟨hok, h.whole, h.generation, by rw [hout], ?_, ?_⟩
      · simpa using hends.start
      · have := hends.shown
        simpa [List.isEmpty_iff.mp he] using this
    · exact ⟨⟨hok, hok'⟩, hends⟩
  | cons bytes rest ih =>
    have hlt : m < s.out.length := by
      by_contra hge
      rw [List.drop_eq_nil_of_le (by omega)] at hrest
      cases hrest
    have hrest' : rest = s.out.drop (m + 1) := by
      have := congrArg (List.drop 1) hrest
      simpa [Nat.add_comm 1 m] using this
    have hmerged' : merged ++ bytes = ((s.out.take (m + 1)).drop n).flatten := by
      have hget : s.out[m]? = some bytes := by
        rw [← List.head?_drop, ← hrest]
        rfl
      rw [List.take_add_one, hget, List.drop_append_of_le_length, hmerged]
      · simp
      · rw [List.length_take]
        omega
    simp only [numbered, deltaFrames]
    split
    · obtain ⟨hok', hends⟩ := h.sequenced id (merged ++ bytes) (m := m + 1) hok
        (by omega) (by rw [hout]; omega) (by rw [hout, hmerged'])
      obtain ⟨h₁, h₂⟩ := ih [] hok' hends (Nat.le_refl _) hlt (by simp) hrest'
      exact ⟨⟨hok, h₁⟩, h₂⟩
    · exact ih _ hok h (by omega) hlt hmerged' hrest'

/-! ## The invariant -/

variable {w : World} {cap : Nat} {f : Forwarder}

/-- The output of the session in each lifetime. -/
def World.outputs (w : World) (id : SessionId) (life : Nat) : List Bytes := (w.sessions life id).out

/-- The session is viewed, or nothing of it was skipped. -/
def Watched (w : World) (id : SessionId) : Prop :=
  w.phone.activeId = some id ∨ (w.phone.views id).whole

instance : Decidable (Watched w id) := inferInstanceAs (Decidable (_ ∨ _))

/-- Where the forwarder is, when `v` is the view after the frames in the queue. -/
def Tracks (out : Nat → List Bytes) (life : Nat) (v : View) (f : Forwarder) : Prop :=
  match f.phase with
  | .receiving => v.EndsAt out life f.taken
  | .merging seq merged => seq = f.taken ∧ f.taken ≤ (out life).length ∧
      ∃ n ≤ f.taken, v.EndsAt out life n ∧ merged = (((out life).take f.taken).drop n).flatten
  | .sending frames _ => (replay f.id v frames).EndsAt out life f.taken

/-- The rings have the output, and the views are its parts. -/
structure Inv (w : World) : Prop where
  ring : ∀ life id, Holds (w.sessions life id).ring (w.sessions life id).out
  views : ∀ id, (w.phone.views id).Ok (w.outputs id)
  plays : ∀ id, Watched w id → Plays (w.outputs id) id (w.phone.views id) w.inFlight
  tracks : ∀ life f, w.link = some life → w.active = some f → Watched w f.id →
    Tracks (w.outputs f.id) life (replay f.id (w.phone.views f.id) (w.wire ++ w.queue)) f
  term : ∀ id, w.phone.activeId = some id → w.phone.cleared = false →
    w.phone.term = (w.phone.views id).shown

theorem inv_start : Inv {} where
  ring life id := holds_nil
  views id := ⟨by simp, fun _ => rfl, by simp⟩
  plays id _ := ⟨by simp, fun _ => rfl, by simp⟩
  tracks life f hl := by cases hl
  term id ha := by cases ha

theorem Tracks.mono {v : View} (h : Tracks out life v f) (hg : ∀ life, out life <+: out' life) :
    Tracks out' life v f := by
  unfold Tracks at h ⊢
  split at h
  · exact h.mono hg
  · obtain ⟨hseq, hle, n, hn, hends, hmerged⟩ := h
    obtain ⟨more, hmore⟩ := hg life
    refine ⟨hseq, ?_, n, hn, hends.mono hg, ?_⟩
    · rw [← hmore, List.length_append]
      omega
    · rw [hmerged, ← hmore, List.take_append_of_le_length hle]
  · exact h.mono hg

/-- The sessions go on. -/
theorem Inv.grow (h : Inv w) {sessions : Nat → SessionId → Session}
    (hg : ∀ life id, (w.sessions life id).out <+: (sessions life id).out)
    (hr : ∀ life id, Holds (sessions life id).ring (sessions life id).out) :
    Inv { w with sessions } where
  ring := hr
  views id := (h.views id).mono fun life => hg life id
  plays id hw := (h.plays id hw).mono fun life => hg life id
  tracks life f hl hf hw := (h.tracks life f hl hf hw).mono fun life => hg life f.id
  term := h.term

theorem updateSession_sessions (life : Nat) (id : SessionId) (g : Session → Session) (life' : Nat)
    (id' : SessionId) : (w.updateSession life id g).sessions life' id' =
      if life' = life ∧ id' = id then g (w.sessions life id) else w.sessions life' id' := by
  by_cases hl : life' = life
  · subst hl
    by_cases hi : id' = id
    · subst hi
      simp [World.updateSession]
    · simp [World.updateSession, hi]
  · simp [World.updateSession, hl]

/-- What a session appends is not on the way yet. -/
theorem Inv.updateSession (h : Inv w) (life : Nat) (id : SessionId) {g : Session → Session}
    (hg : (w.sessions life id).out <+: (g (w.sessions life id)).out)
    (hr : Holds (g (w.sessions life id)).ring (g (w.sessions life id)).out) :
    Inv (w.updateSession life id g) := by
  refine h.grow (fun life' id' => ?_) fun life' id' => ?_
  · show _ <+: ((w.updateSession life id g).sessions life' id').out
    rw [updateSession_sessions]
    split
    · next heq =>
      rw [heq.1, heq.2]
      exact hg
    · exact List.prefix_rfl
  · show Holds ((w.updateSession life id g).sessions life' id').ring
      ((w.updateSession life id g).sessions life' id').out
    rw [updateSession_sessions]
    split
    · exact hr
    · exact h.ring life' id'

/-- The connection is gone, and a new one may be there. -/
theorem Inv.disconnect (h : Inv w) (link : Option Nat) (viewed : SessionId) :
    Inv { w with link, inbox := [], queue := [], wire := [], active := none, viewed } where
  ring := h.ring
  views := h.views
  plays id _ := h.views id
  tracks life f _ hf := by cases hf
  term := h.term

/-- Commands do not matter until they are handled. -/
theorem Inv.commands (h : Inv w) (inbox : List Command) (viewed : SessionId) :
    Inv { w with inbox, viewed } :=
  ⟨h.ring, h.views, h.plays, h.tracks, h.term⟩

theorem Inv.send (h : Inv w) (command : Command) : Inv (w.send command) := by
  unfold World.send
  split
  · exact h.commands _ _
  · exact h

/-- The forwarder is aborted. -/
theorem Inv.abort (h : Inv w) : Inv { w with active := none } where
  ring := h.ring
  views := h.views
  plays id hw := by
    have := h.plays id hw
    rw [World.inFlight, plays_append] at this
    show Plays (w.outputs id) id _ (w.wire ++ w.queue ++ [])
    rw [List.append_nil]
    exact this.1
  tracks life f _ hf := by cases hf
  term := h.term

/-- Frames are written past the queue that are about no screen. -/
theorem Inv.writeSilent (h : Inv w) (fs : List Frame) (hs : ∀ id, Silent id fs) :
    Inv { w with wire := w.wire ++ fs } where
  ring := h.ring
  views := h.views
  plays id hw := by
    have := h.plays id hw
    simp only [World.inFlight, List.append_assoc, plays_append] at this ⊢
    rw [(hs id).replay]
    exact ⟨this.1, (hs id).plays this.1.replay_ok, this.2⟩
  tracks life f hl hf hw := by
    have := h.tracks life f hl hf hw
    simp only [replay_append, (hs f.id).replay] at this ⊢
    exact this
  term := h.term

/-- Frames of one session are written past a queue that has none, and a new forwarder goes on. -/
theorem Inv.rewrite (h : Inv w) (hl : w.link = some life)
    (hs : ∀ id', id' ≠ id → Silent id' fs)
    (hp : Watched w id → Silent id w.queue ∧
      Plays (w.outputs id) id (replay id (w.phone.views id) w.wire) fs ∧
      (replay id (replay id (w.phone.views id) w.wire) fs).EndsAt (w.outputs id) life n) :
    Inv { w with wire := w.wire ++ fs, active := some { id, taken := n } } where
  ring := h.ring
  views := h.views
  plays id' hw := by
    have hplays := h.plays id' hw
    simp only [World.inFlight, Option.map_some, Option.getD_some, Forwarder.pending,
      List.append_assoc, List.append_nil, plays_append] at hplays ⊢
    by_cases hid : id' = id
    · subst hid
      obtain ⟨hq, hfs, hends⟩ := hp hw
      exact ⟨hplays.1, hfs, hq.plays hfs.replay_ok⟩
    · rw [(hs id' hid).replay]
      exact ⟨hplays.1, (hs id' hid).plays hplays.1.replay_ok, hplays.2.1⟩
  tracks life' f hl' hf hw := by
    obtain rfl := Option.some.inj hf
    obtain rfl : life = life' := Option.some.inj (hl.symm.trans hl')
    obtain ⟨hq, hfs, hends⟩ := hp hw
    simp only [Tracks, replay_append, hq.replay]
    exact hends
  term := h.term

/-! ## Attaching -/

theorem silent_snapshotFrames {id' : SessionId} (h : id' ≠ id) (s : Session) :
    Silent id' (snapshotFrames id s) := by
  intro frame hf
  obtain hf | hf := List.mem_append.mp hf
  · obtain ⟨bytes, -, rfl⟩ := List.mem_map.mp hf
    simpa [Frame.screen] using h.symm
  · obtain rfl := List.mem_singleton.mp hf
    simpa [Frame.screen] using h.symm

/-- A delta is about its own session. -/
theorem silent_deltaFrames {id' : SessionId} (h : id' ≠ id) (chunks : List OutputChunk)
    (merged : Bytes) (seq : Nat) : Silent id' (deltaFrames id chunks merged seq) := by
  induction chunks generalizing merged seq with
  | nil =>
    unfold deltaFrames
    split
    · simp [Silent]
    · simpa [Silent, Frame.screen] using h.symm
  | cons chunk chunks ih =>
    unfold deltaFrames
    split
    · intro frame hf
      obtain rfl | hf := List.mem_cons.mp hf
      · simpa [Frame.screen] using h.symm
      · exact ih [] chunk.seq frame hf
    · exact ih _ _

theorem silent_sessionSize (id id' : SessionId) (size : Nat × Nat) :
    Silent id' [.sessionSize id size] := by
  simp [Silent, Frame.screen]

/-! Conditions for what the handler writes, in the state before. -/

/-- A snapshot can be taken and written: no frame of the session is in the queue, and no chunk is
between its number and the ring. -/
def AttachOk (w : World) (life : Nat) (id : SessionId) : Prop :=
  Watched w id → (w.sessions life id).listed → ¬ (w.sessions life id).agent →
    Silent id w.queue ∧ (w.sessions life id).drawn = none

instance : Decidable (AttachOk w life id) :=
  inferInstanceAs (Decidable (_ → _ → ¬ _ → _ ∧ _))

/-- A snapshot is where the forwarder begins. -/
theorem Inv.attach (h : Inv w) (hl : w.link = some life) (hs : AttachOk w life id) :
    Inv (w.attach life id) := by
  unfold World.attach
  dsimp only
  split
  · exact h.abort
  next hlisted =>
  split
  · refine h.abort.writeSilent [.other] fun id => ?_
    simp [Silent, Frame.screen]
  next hagent =>
  rw [List.append_assoc]
  refine h.rewrite hl (fun id' hid => ?_) fun hw => ?_
  · refine silent_append.mpr ⟨?_, silent_snapshotFrames hid _⟩
    simpa [Silent, resetFrame, Frame.screen] using hid.symm
  · obtain ⟨hq, hd⟩ := hs hw (by simpa using hlisted) hagent
    have hwire := (plays_append.mp (plays_append.mp (h.plays id hw)).1).1
    exact ⟨hq, plays_snapshot [.sessionSize id (w.sessions life id).size] hwire.replay_ok
      rfl (h.ring life id) hd (silent_sessionSize id id _)⟩

/-- A delta can be written: the command says what the phone has recorded, this is where its screen
ends, and no frame of the session is on the way. -/
def ResumeOk (w : World) (life : Nat) (id : SessionId) (afterSeq generation : Nat) : Prop :=
  Watched w id → generation = life → ¬ (w.sessions life id).agent →
    ((w.sessions life id).deltaSince afterSeq).isSome →
    Silent id (w.wire ++ w.queue) ∧ (w.sessions life id).drawn = none ∧
    (w.phone.views id).whole ∧ (w.phone.views id).settled ∧
    (w.phone.views id).lastSeq = afterSeq ∧ (w.phone.views id).lastGeneration = generation

instance {afterSeq generation : Nat} : Decidable (ResumeOk w life id afterSeq generation) :=
  inferInstanceAs (Decidable (_ → _ → ¬ _ → _ → _ ∧ _))

/-- A delta goes on where the screen of the phone ends. -/
theorem Inv.attachResume (h : Inv w) (hl : w.link = some life) {afterSeq generation : Nat}
    (ha : AttachOk w life id) (hs : ResumeOk w life id afterSeq generation) :
    Inv (w.attachResume life id afterSeq generation) := by
  unfold World.attachResume
  dsimp only
  split
  · exact h.attach hl ha
  next hgen =>
  split
  · exact h.attach hl ha
  next hagent =>
  split
  · exact h.attach hl ha
  next chunks throughSeq hdelta =>
  simp only [List.append_assoc]
  refine h.rewrite hl (fun id' hid => ?_) fun hw => ?_
  · refine silent_append.mpr ⟨silent_sessionSize _ _ _, silent_append.mpr
      ⟨silent_deltaFrames hid _ _ _, ?_⟩⟩
    simpa [Silent, Frame.screen] using hid.symm
  · have hgen : generation = life := by simpa using hgen
    obtain ⟨hsilent, hd, hwhole, hsettled, hseq, hlast⟩ :=
      hs hw hgen hagent (by rw [hdelta]; rfl)
    obtain ⟨hwire, hqueue⟩ := silent_append.mp hsilent
    have hok := h.views id
    have hg : (w.phone.views id).generation = life :=
      (hok.generation hwhole).symm.trans (hlast.trans hgen)
    obtain ⟨hle, hstart, hshown⟩ := hok.seq hwhole hsettled
    rw [hseq, hg] at hle hstart hshown
    obtain ⟨hchunks, hthrough⟩ := Session.deltaSince_eq (h.ring life id) hdelta
    have hend : throughSeq = (w.sessions life id).out.length := by
      simp [hthrough, Session.throughSeq, hd]
    rw [hwire.replay, hchunks, hend]
    obtain ⟨hplay, hends⟩ := plays_delta id [] (s := w.sessions life id)
      rfl hok ⟨hwhole, hg, hle, hstart, hshown⟩ (Nat.le_refl _) hle (by simp) rfl
    obtain ⟨hok', hends'⟩ := hends.sequenced id [] hplay.replay_ok (Nat.le_refl _)
      (Nat.le_refl _) (by simp)
    refine ⟨hqueue, ?_, ?_⟩
    · rw [plays_append, plays_append, (silent_sessionSize _ _ _).replay]
      exact ⟨(silent_sessionSize _ _ _).plays hok, hplay, hplay.replay_ok, hok'⟩
    · rw [replay_append, replay_append, (silent_sessionSize _ _ _).replay]
      exact hends'

/-! ## The forwarder -/

/-- One more chunk. -/
theorem take_succ_drop {outs : List Bytes} {bytes : Bytes} (hn : n ≤ m)
    (hget : outs[m]? = some bytes) :
    ((outs.take (m + 1)).drop n).flatten = ((outs.take m).drop n).flatten ++ bytes := by
  have hlt : m < outs.length := (List.getElem?_eq_some_iff.mp hget).1
  rw [List.take_add_one, hget, List.drop_append_of_le_length]
  · simp
  · rw [List.length_take]
    omega

theorem Tracks.resync (hok : v.Ok out) (hout : out life = s.out) (hr : Holds s.ring s.out)
    (hd : s.drawn = none) (f : Forwarder) :
    Plays out f.id v (f.resync life s).pending ∧ Tracks out life v (f.resync life s) :=
  plays_snapshot [] hok hout hr hd (by simp [Silent])

/-- The forwarder takes a chunk, or sends the screen again. -/
theorem Tracks.step (h : Tracks out life v f) (hok : v.Ok out) (hout : out life = s.out)
    (hr : Holds s.ring s.out) (hd : f.resyncs s = true → s.drawn = none)
    (hp : f.pending = []) :
    Plays out f.id v (f.step life s).pending ∧ Tracks out life v (f.step life s) := by
  unfold Forwarder.step
  split
  · next hres => exact Tracks.resync hok hout hr (hd hres) f
  next hres =>
  obtain ⟨id, taken, phase⟩ := f
  cases phase with
  | receiving =>
    simp only
    split
    · exact ⟨hok, h⟩
    · next bytes hget =>
      have hlt : taken < s.out.length := (List.getElem?_eq_some_iff.mp hget).1
      refine ⟨hok, rfl, by rw [hout]; exact hlt, taken, Nat.le_succ _, h, ?_⟩
      rw [hout, take_succ_drop (Nat.le_refl _) hget]
      simp
  | merging seq merged =>
    obtain ⟨rfl, hle, n, hn, hends, hmerged⟩ := h
    have hsend : ∀ lagged,
        let f : Forwarder :=
          { id, taken := seq, phase := .sending [.sequencedOutput id seq merged] lagged }
        Plays out id v f.pending ∧ Tracks out life v f := by
      intro lagged
      obtain ⟨hok', hends'⟩ := hends.sequenced id _ hok hn hle hmerged
      exact ⟨⟨hok, hok'⟩, hends'⟩
    simp only
    split
    · split
      · exact hsend true
      · split
        · exact hsend false
        · next bytes hget =>
          have hlt : seq < s.out.length := (List.getElem?_eq_some_iff.mp hget).1
          refine ⟨hok, rfl, by rw [hout]; exact hlt, n, Nat.le_succ_of_le hn, hends, ?_⟩
          rw [hout] at hmerged ⊢
          rw [take_succ_drop hn hget, hmerged]
    · exact hsend false
  | sending frames lagged =>
    obtain rfl : frames = [] := hp
    exact ⟨hok, h⟩

/-- What it sends is about its own session. -/
theorem silent_step {id : SessionId} (h : id ≠ f.id) (hp : f.pending = []) (s : Session) :
    Silent id (f.step life s).pending ∧ (f.step life s).id = f.id := by
  unfold Forwarder.step
  split
  · refine ⟨?_, rfl⟩
    refine List.forall_mem_cons.mpr ⟨?_, silent_snapshotFrames h s⟩
    simpa [resetFrame, Frame.screen] using h.symm
  obtain ⟨id', taken, phase⟩ := f
  have hsend : ∀ seq merged, Silent id [.sequencedOutput id' seq merged] := by
    intro seq merged
    simpa [Silent, Frame.screen] using h.symm
  cases phase with
  | receiving =>
    simp only
    split <;> exact ⟨by simp [Silent, Forwarder.pending], rfl⟩
  | merging seq merged =>
    simp only
    split
    · split
      · exact ⟨hsend seq merged, rfl⟩
      · split
        · exact ⟨hsend seq merged, rfl⟩
        · exact ⟨by simp [Silent, Forwarder.pending], rfl⟩
    · exact ⟨hsend seq merged, rfl⟩
  | sending frames lagged =>
    obtain rfl : frames = [] := hp
    exact ⟨by simp [Silent, Forwarder.pending], rfl⟩

/-- The forwarder of the link goes on. -/
theorem Inv.forward (h : Inv w) (hl : w.link = some life) (hf : w.active = some f)
    (hs : Watched w f.id → f.resyncs (w.sessions life f.id) →
      (w.sessions life f.id).drawn = none) : Inv (w.forward life f) := by
  unfold World.forward
  split
  · next frame frames lagged hphase =>
    split
    · -- The frame goes from the forwarder to the queue.
      have hflight : (({ w with
          queue := w.queue ++ [frame]
          active := some { f with phase := .sending frames lagged } } : World)).inFlight =
            w.inFlight := by
        simp [World.inFlight, hf, Forwarder.pending, hphase]
      refine ⟨h.ring, h.views, fun id hw => hflight ▸ h.plays id hw, fun life' f' hl' hf' hw => ?_,
        h.term⟩
      obtain rfl := Option.some.inj hf'
      have := h.tracks life' f hl' hf hw
      rw [Tracks, hphase] at this
      simp only [Tracks, replay_append, replay_cons, replay_nil] at this ⊢
      exact this
    · exact h
  · next hphase =>
    have hp : f.pending = [] := by
      unfold Forwarder.pending
      split
      · next frames lagged heq =>
        cases frames with
        | nil => rfl
        | cons frame frames => exact absurd heq (hphase frame frames lagged)
      · rfl
      · rfl
    have hbase : ∀ id, Watched w id →
        Plays (w.outputs id) id (w.phone.views id) (w.wire ++ w.queue) := fun id hw =>
      (plays_append.mp (h.plays id hw)).1
    have hstep := fun hw : Watched w f.id =>
      (h.tracks life f hl hf hw).step (hbase f.id hw).replay_ok rfl (h.ring life f.id) (hs hw) hp
    have hid : (f.step life (w.sessions life f.id)).id = f.id :=
      (silent_step (Nat.succ_ne_self f.id) hp _).2
    refine ⟨h.ring, h.views, fun id hw => ?_, fun life' f' hl' hf' hw => ?_, h.term⟩
    · show Plays (w.outputs id) id _ (w.wire ++ w.queue ++ _)
      refine plays_append.mpr ⟨hbase id hw, ?_⟩
      by_cases heq : id = f.id
      · subst heq
        exact (hstep hw).1
      · exact (silent_step heq hp _).1.plays (hbase id hw).replay_ok
    · obtain rfl := Option.some.inj hf'
      obtain rfl : life = life' := Option.some.inj (hl.symm.trans hl')
      rw [hid] at hw ⊢
      exact (hstep hw).2

/-! ## The phone -/

/-- The terminal shows the view of the session that is open. -/
theorem receive_term {p : Phone}
    (h : ∀ id, p.activeId = some id → p.cleared = false → p.term = (p.views id).shown)
    (ha : p.activeId = some id) (hc : (p.receive frame).cleared = false) :
    (p.receive frame).term = ((p.receive frame).views id).shown := by
  unfold Phone.receive at hc ⊢
  split
  · next hs =>
    simp only [hs] at hc
    exact h id ha hc
  · next id' hs =>
    simp only [hs] at hc
    by_cases hid : p.activeId = some id'
    · obtain rfl : id = id' := Option.some.inj (ha.symm.trans hid)
      simp only [if_pos hid] at hc ⊢
      cases frame with
      | screenReset id' generation start =>
        obtain rfl : id' = id := Option.some.inj hs
        simp
      | output id' bytes =>
        obtain rfl : id' = id := Option.some.inj hs
        simp [h id' ha hc]
      | sequencedOutput id' seq bytes =>
        obtain rfl : id' = id := Option.some.inj hs
        simp [h id' ha hc]
      | sessionSize id' size => cases hs
      | other => cases hs
    · simp only [if_neg hid] at hc ⊢
      have hne : id ≠ id' := fun heq => hid (heq ▸ ha)
      rw [Function.update_of_ne hne]
      exact h id ha hc

/-- The phone takes the next frame of the link. -/
theorem Inv.receive (h : Inv w) {wire : List Frame} (hwire : w.wire = frame :: wire) :
    Inv { w with wire, phone := w.phone.receive frame } := by
  have hflight : w.inFlight = frame :: ({ w with wire } : World).inFlight := by
    simp [World.inFlight, hwire]
  -- A session that the frame is not about.
  have hother : ∀ id, frame.screen ≠ some id →
      (w.phone.receive frame).views id = w.phone.views id := by
    intro id hne
    unfold Phone.receive
    split
    · rfl
    · next id' hid =>
      have hne' : id ≠ id' := fun heq => hne (heq ▸ hid)
      split <;> exact Function.update_of_ne hne' _ _
  have hactive : (w.phone.receive frame).activeId = w.phone.activeId := by
    unfold Phone.receive
    split
    · rfl
    · split <;> rfl
  -- The frame is shown, or it is about another session.
  have hshown : ∀ id, Watched { w with wire, phone := w.phone.receive frame } id →
      Watched w id ∧ (w.phone.receive frame).views id = (w.phone.views id).render id frame := by
    intro id hw
    by_cases hs : frame.screen = some id
    · by_cases ha : w.phone.activeId = some id
      · refine ⟨.inl ha, ?_⟩
        simp [Phone.receive, hs, ha]
      · obtain hw | hw := hw
        · exact absurd (hactive ▸ hw) ha
        · simp [Phone.receive, hs, ha, View.skip_whole hs] at hw
    · rw [View.render_of_ne hs, hother id hs]
      refine ⟨?_, rfl⟩
      obtain hw | hw := hw
      · exact .inl (hactive ▸ hw)
      · exact .inr (hother id hs ▸ hw)
  refine ⟨h.ring, fun id => ?_, fun id hw => ?_, fun life f hl hf hw => ?_, fun id ha hc => ?_⟩
  · by_cases hs : frame.screen = some id
    · by_cases ha : w.phone.activeId = some id
      · obtain ⟨hw, hv⟩ := hshown id (.inl (hactive.trans ha))
        have := h.plays id hw
        rw [hflight] at this
        exact hv ▸ this.2.ok
      · have hv : (w.phone.receive frame).views id = (w.phone.views id).skip frame := by
          simp [Phone.receive, hs, ha]
        exact hv ▸ (h.views id).skip hs
    · exact (hother id hs).symm ▸ h.views id
  · obtain ⟨hw, hv⟩ := hshown id hw
    have := h.plays id hw
    rw [hflight] at this
    exact hv ▸ this.2
  · obtain ⟨hw, hv⟩ := hshown f.id hw
    have := h.tracks life f hl hf hw
    rw [hwire, List.cons_append, replay_cons] at this
    exact hv ▸ this
  · exact receive_term (fun id => h.term id) (hactive ▸ ha) hc

/-- The phone opens a session of which nothing was skipped, or nothing is on the way. -/
theorem Inv.activate (h : Inv w)
    (hs : Watched w id ∨ (Silent id w.inFlight ∧ w.active.map (·.id) ≠ some id)) :
    Inv { w with phone := { w.phone with activeId := some id, term := [], cleared := true } } := by
  have hwatched : ∀ id',
      Watched { w with phone := { w.phone with activeId := some id, term := [], cleared := true } } id' →
      Watched w id' ∨ (id' = id ∧ ¬ Watched w id) := by
    intro id' hw
    by_cases hw' : Watched w id'
    · exact .inl hw'
    · obtain hw | hw := hw
      · obtain rfl : id = id' := Option.some.inj hw
        exact .inr ⟨rfl, hw'⟩
      · exact absurd (.inr hw) hw'
  refine ⟨h.ring, h.views, fun id' hw => ?_, fun life f hl hf hw => ?_, fun _ _ hc => by cases hc⟩
  · obtain hw | ⟨rfl, hnot⟩ := hwatched id' hw
    · exact h.plays id' hw
    · exact (hs.resolve_left hnot).1.plays (h.views id')
  · obtain hw | ⟨hid, hnot⟩ := hwatched f.id hw
    · exact h.tracks life f hl hf hw
    · have hne := (hs.resolve_left hnot).2
      rw [show w.active = some f from hf, Option.map_some, hid] at hne
      exact absurd rfl hne

/-! ## Steps that keep the stream in order -/

/-- For the command that the handler takes. -/
def CommandOk (w : World) (life : Nat) : Command → Prop
  | .attach id => AttachOk w life id
  | .resumeStream => w.viewed ≠ 0 → AttachOk w life w.viewed
  | .outputResume id afterSeq generation =>
    AttachOk w life id ∧ ResumeOk w life id afterSeq generation
  | .detach | .pauseStream => True

/-- The first command of the phone fits the life of the host. -/
def HandleOk (w : World) : Option Nat → List Command → Prop
  | some life, command :: _ => CommandOk w life command
  | some _, [] => True
  | none, _ => True

/-- No chunk is between its number and the ring when the forwarder takes a snapshot. -/
def ForwardOk (w : World) : Option Nat → Option Forwarder → Prop
  | some life, some f => Watched w f.id → f.resyncs (w.sessions life f.id) →
      (w.sessions life f.id).drawn = none
  | some _, none => True
  | none, _ => True

/-- The steps that keep the stream in order. -/
def Undisturbed (w : World) : Event → Prop
  | .attachTo id => Watched w id ∨ (Silent id w.inFlight ∧ w.active.map (·.id) ≠ some id)
  | .handle => HandleOk w w.link w.inbox
  | .forward => ForwardOk w w.link w.active
  | _ => True

instance : ∀ command, Decidable (CommandOk w life command)
  | .attach id => inferInstanceAs (Decidable (AttachOk w life id))
  | .resumeStream => inferInstanceAs (Decidable (_ → _))
  | .outputResume .. => inferInstanceAs (Decidable (_ ∧ _))
  | .detach | .pauseStream => .isTrue trivial

instance : ∀ link inbox, Decidable (HandleOk w link inbox)
  | some life, command :: _ => inferInstanceAs (Decidable (CommandOk w life command))
  | some _, [] => .isTrue trivial
  | none, _ => .isTrue trivial

instance : ∀ link active, Decidable (ForwardOk w link active)
  | some _, some _ => inferInstanceAs (Decidable (_ → _ → _))
  | some _, none => .isTrue trivial
  | none, _ => .isTrue trivial

instance : ∀ ev, Decidable (Undisturbed w ev)
  | .attachTo _ => inferInstanceAs (Decidable (_ ∨ _))
  | .handle => inferInstanceAs (Decidable (HandleOk w w.link w.inbox))
  | .forward => inferInstanceAs (Decidable (ForwardOk w w.link w.active))
  | .opened .. | .closed .. | .resize .. | .draw .. | .publish .. | .connect _ | .linkLost | .leave
  | .detach | .pauseStream | .resumeStream | .resumeOutput | .notify | .write | .receive =>
    .isTrue trivial

/-- The host takes the next command of the phone. -/
theorem Inv.handle (h : Inv w) (hl : w.link = some life) {command : Command}
    (hs : CommandOk w life command) (inbox : List Command) :
    Inv ({ w with inbox }.handle life command) := by
  have hw := h.commands inbox w.viewed
  cases command with
  | attach id =>
    simp only [World.handle]
    split
    · exact (h.commands inbox id).attach hl hs
    · refine hw.writeSilent [.other] fun id => ?_
      simp [Silent, Frame.screen]
  | detach => exact (h.commands inbox 0).abort
  | pauseStream => exact hw.abort
  | resumeStream =>
    simp only [World.handle]
    split
    · next hv => exact hw.attach hl (hs hv)
    · exact hw
  | outputResume id afterSeq generation =>
    simp only [World.handle]
    split
    · exact (h.commands inbox id).attachResume hl hs.1 hs.2
    · exact hw

theorem Inv.step (h : Inv w) (ev : Event) (hs : Undisturbed w ev) : Inv (w.step cap ev) := by
  cases ev with
  | opened life id agent =>
    simp only [World.step]
    exact h.updateSession life id List.prefix_rfl (h.ring life id)
  | closed life id =>
    simp only [World.step]
    exact h.updateSession life id List.prefix_rfl (h.ring life id)
  | resize life id size =>
    simp only [World.step]
    exact h.updateSession life id List.prefix_rfl (h.ring life id)
  | draw life id bytes =>
    have hsame : ((w.sessions life id).draw bytes).out = (w.sessions life id).out ∧
        ((w.sessions life id).draw bytes).ring = (w.sessions life id).ring := by
      unfold Session.draw
      split <;> exact ⟨rfl, rfl⟩
    simp only [World.step]
    refine h.updateSession life id ?_ ?_
    · simp only [hsame.1, List.prefix_rfl]
    · rw [hsame.1, hsame.2]
      exact h.ring life id
  | publish life id =>
    simp only [World.step]
    refine h.updateSession life id ?_ ?_
    · simp only [Session.publish]
      split
      · exact List.prefix_rfl
      · exact List.prefix_append _ _
    · simp only [Session.publish]
      split
      · exact h.ring life id
      · exact (h.ring life id).push _ cap
  | connect life =>
    simp only [World.step]
    split
    · exact h
    · exact h.disconnect _ _
  | linkLost => exact h.disconnect none w.viewed
  | attachTo id => exact (h.activate hs).send _
  | leave =>
    refine ⟨h.ring, h.views, fun id hw => h.plays id ?_, fun life f hl hf hw => h.tracks life f hl hf ?_,
      fun _ ha => by cases ha⟩
    · exact .inr (hw.resolve_left fun ha => by cases ha)
    · exact .inr (hw.resolve_left fun ha => by cases ha)
  | detach => exact h.send _
  | pauseStream => exact h.send _
  | resumeStream => exact h.send _
  | resumeOutput =>
    simp only [World.step]
    split
    · exact h
    · exact h.send _
  | handle =>
    simp only [World.step]
    split
    · next life command inbox hl hi =>
      simp only [Undisturbed, hl, hi] at hs
      exact h.handle hl hs inbox
    · exact h
  | forward =>
    simp only [World.step]
    split
    · next life f hl hf =>
      simp only [Undisturbed, hl, hf] at hs
      exact h.forward hl hf hs
    · exact h
  | notify =>
    simp only [World.step]
    split
    · have hsilent : ∀ id, Silent id [.other] := by simp [Silent, Frame.screen]
      refine ⟨h.ring, h.views, fun id hw => ?_, fun life f hl hf hw => ?_, h.term⟩
      · have := h.plays id hw
        simp only [World.inFlight, List.append_assoc, plays_append] at this ⊢
        refine ⟨this.1, this.2.1, (hsilent id).plays this.2.1.replay_ok, ?_⟩
        rw [(hsilent id).replay]
        exact this.2.2
      · have := h.tracks life f hl hf hw
        simp only [replay_append, (hsilent f.id).replay] at this ⊢
        exact this
    · exact h
  | write =>
    simp only [World.step]
    split
    · exact h
    · next frame queue hq =>
      have hmove : w.wire ++ [frame] ++ queue = w.wire ++ w.queue := by simp [hq]
      refine ⟨h.ring, h.views, fun id hw => ?_, fun life f hl hf hw => ?_, h.term⟩
      · have := h.plays id hw
        simp only [World.inFlight, hmove] at this ⊢
        exact this
      · have := h.tracks life f hl hf hw
        simp only [hmove] at this ⊢
        exact this
  | receive =>
    simp only [World.step]
    split
    · exact h
    · next frame wire hwire => exact h.receive hwire

/-! ## The screen -/

/-- What was shown of the viewed session since its last `ScreenReset` is a part of its output, from
where the scrollback of that snapshot starts. -/
def Coherent (w : World) : Prop :=
  ∀ id, w.phone.activeId = some id →
    (w.phone.views id).shown <+:
      (w.outputs id (w.phone.views id).generation).flatten.drop (w.phone.views id).start

/-- In every run of undisturbed steps the screen is a part of the output at every moment. -/
theorem stream_coherent (cap : Nat) (evs : List Event)
    (h : Run.Along (World.step cap) Undisturbed {} evs) :
    Coherent (Run.run (World.step cap) {} evs) := by
  have hinv : Inv (Run.run (World.step cap) {} evs) :=
    h.induction inv_start fun _ ev hw hs => hw.step ev hs
  exact fun id _ => (hinv.views id).part

/-- The program of session 1 writes. -/
def printed (bytes : Bytes) : List Event := [.draw 1 1 bytes, .publish 1 1]

/-- The phone opens session 1, whose program has written one byte, and gets it. -/
def openedRun : List Event :=
  [.opened 1 1 false] ++ printed [1] ++
    [.connect 1, .attachTo 1, .handle, .receive, .receive, .receive, .receive]

/-- The program writes another byte, which the forwarder puts into the queue. -/
def queuedRun : List Event := openedRun ++ printed [2] ++ [.forward, .forward, .forward]

/-- The byte arrives. The phone is in the background for a while and resumes the output. -/
def resumedRun : List Event :=
  queuedRun ++ [.write, .receive, .detach, .handle] ++ printed [3] ++
    [.resumeOutput, .handle, .receive, .receive, .receive]

theorem stream_coherent_resumed :
    Coherent (Run.run (World.step 4096) {} resumedRun) ∧
      ((Run.run (World.step 4096) {} resumedRun).phone.views 1).shown = [1, 2, 3] :=
  ⟨stream_coherent 4096 resumedRun (by decide +kernel), by decide +kernel⟩

/-- The stream is paused and resumed while the second byte is in the queue. The snapshot has it, and
then it comes from the queue. -/
def repeatedRun : List Event :=
  queuedRun ++ [.pauseStream, .resumeStream, .handle, .handle, .write, .receive, .receive, .receive,
    .receive, .receive]

theorem not_stream_coherent : ¬ Coherent (Run.run (World.step 4096) {} repeatedRun) := by
  intro h
  have hshown := h 1 (by decide +kernel)
  revert hshown
  decide +kernel

end Stream

end Portty
