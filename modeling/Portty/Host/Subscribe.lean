import Portty.Host.Scrollback
import Portty.Lib.Run

/-!
# Snapshot and subscription (`session.rs`)

A viewer takes the scrollback, or the chunks after a number, and a receiver for what follows, all
under the lock under which `push_output` pushes a chunk and sends it. Any number of viewers do so
between the two steps of the producer.

* `Viewer.Complete`: what a viewer was given and what is sent to it are the output from some chunk
  on.
* `Viewer.Exact`: and `through_seq` is the number of the last chunk that it was given.

The boundary is read from the counter, which the producer moves before it takes the lock, so that it
is exact where no chunk has a number and waits for the lock (`CutOk`).
-/

namespace Portty

namespace Subscribe

open Scrollback

/-- What a viewer was given when it subscribed, and its receiver. -/
structure Viewer where
  /-- The boundary of a delta; a snapshot has none. -/
  afterSeq : Option Nat := none
  /-- The chunks of the snapshot or the delta. -/
  chunks : List OutputChunk
  throughSeq : Nat
  received : List OutputChunk := []
  /-- The chunks that the channel has for the receiver. -/
  queue : List OutputChunk := []
  /-- The channel was full, and dropped a chunk that was not received. -/
  lagged : Bool := false
  deriving DecidableEq

namespace Viewer

/-- The bytes of the snapshot. -/
def snap (v : Viewer) : Bytes := (v.chunks.map (·.bytes)).flatten

/-- A chunk goes to a subscriber; a full channel loses its oldest. -/
def send (capacity : Nat) (chunk : OutputChunk) (v : Viewer) : Viewer :=
  if v.queue.length < capacity then { v with queue := v.queue ++ [chunk] }
  else { v with queue := (v.queue ++ [chunk]).tail, lagged := true }

/-- The subscriber takes a chunk. -/
def recv (v : Viewer) : Viewer :=
  match v.queue with
  | [] => v
  | chunk :: queue => { v with received := v.received ++ [chunk], queue }

/-- What the viewer was given and what was sent to it since. -/
def stream (v : Viewer) : List OutputChunk := v.chunks ++ (v.received ++ v.queue)

/-- The number of the last chunk of the snapshot or the delta. -/
def lastSeq (v : Viewer) : Nat := (v.chunks.map (·.seq)).getLast?.getD (v.afterSeq.getD 0)

end Viewer

/-- A session and its subscribers. -/
structure State where
  session : Session := {}
  viewers : List Viewer := []

/-- What the session and its clients do, in any order. -/
inductive Op where
  /-- `push_output` takes the number of a chunk. -/
  | draw (bytes : Bytes)
  /-- `push_output` has the lock. -/
  | publish
  | snapshotAndSubscribe
  | deltaSinceAndSubscribe (afterSeq : Nat)
  | recv (i : Nat)
  deriving DecidableEq

namespace State

variable (s : State)

/-- The chunk is sent under the lock under which it is pushed. -/
def publish (cap capacity : Nat) : State :=
  match s.session.drawn with
  | none => s
  | some bytes =>
    let chunk := { seq := s.session.out.length + 1, bytes }
    { session := s.session.publish cap, viewers := s.viewers.map (·.send capacity chunk) }

/-- The number is read under the lock. A chunk that gets its number after `concat` is not in the
ring either way. -/
def snapshotAndSubscribe : State :=
  let v : Viewer := { chunks := s.session.ring.chunks, throughSeq := s.session.throughSeq }
  { s with viewers := s.viewers ++ [v] }

/-- What came after a number, and all that comes later. -/
def deltaSinceAndSubscribe (afterSeq : Nat) : State :=
  match s.session.deltaSince afterSeq with
  | none => s
  | some (chunks, throughSeq) =>
    { s with viewers := s.viewers ++ [{ afterSeq := some afterSeq, chunks, throughSeq }] }

/-- One operation. -/
def step (cap capacity : Nat) : Op → State
  | .draw bytes => { s with session := s.session.draw bytes }
  | .publish => s.publish cap capacity
  | .snapshotAndSubscribe => s.snapshotAndSubscribe
  | .deltaSinceAndSubscribe afterSeq => s.deltaSinceAndSubscribe afterSeq
  | .recv i => { s with viewers := s.viewers.modify i Viewer.recv }

/-- The state after the operations. -/
def run (cap capacity : Nat) (ops : List Op) : State :=
  Run.run (fun s op => s.step cap capacity op) s ops

end State

/-! ## What a viewer has -/

/-- The chunks are the last ones of the output, and of the first of them there is the end. -/
def EndOf (out : List Bytes) (chunks : List OutputChunk) : Prop :=
  (out = [] ∧ chunks = []) ∨ ∃ k chunk t later, out.drop k = chunk :: later ∧ t <:+ chunk ∧
    chunks = { seq := k + 1, bytes := t } :: numbered (k + 1) later

/-- No chunk is missing and none is there twice. -/
def Viewer.Complete (out : List Bytes) (v : Viewer) : Prop :=
  match v.afterSeq with
  | none => EndOf out v.stream
  | some afterSeq => v.stream = numbered afterSeq (out.drop afterSeq)

/-- One cut between what the viewer was given and what it receives, and the number of it. -/
structure Viewer.Exact (out : List Bytes) (v : Viewer) : Prop where
  complete : v.lagged = false → v.Complete out
  boundary : v.throughSeq = v.lastSeq

variable {out : List Bytes} {chunks : List OutputChunk} {v : Viewer} {s : State}
  {cap capacity : Nat}

theorem numbered_seqs (k : Nat) (out : List Bytes) :
    (numbered k out).map (·.seq) = List.range' (k + 1) out.length := by
  induction out generalizing k with
  | nil => rfl
  | cons bytes out ih => rw [numbered, List.map_cons, ih, List.length_cons, List.range'_succ]

theorem length_of_drop {k : Nat} {chunk : Bytes} {later : List Bytes}
    (h : out.drop k = chunk :: later) : out.length = k + 1 + later.length := by
  have hlen := congrArg List.length h
  rw [List.length_drop, List.length_cons] at hlen
  omega

theorem EndOf.of_holds {r : ScrollbackRing} (h : Holds r out) : EndOf out r.chunks := by
  obtain ⟨rfl, rfl⟩ | ⟨k, chunk, t, later, h⟩ := h
  · exact .inl ⟨rfl, rfl⟩
  · exact .inr ⟨k, chunk, t, later, h.out, h.suffix, h.chunks⟩

/-- The chunks end with the last one of the output. -/
theorem EndOf.lastSeq (h : EndOf out chunks) :
    (chunks.map (·.seq)).getLast?.getD 0 = out.length := by
  obtain ⟨rfl, rfl⟩ | ⟨k, chunk, t, later, hout, -, rfl⟩ := h
  · rfl
  · have hseqs : ({ seq := k + 1, bytes := t } :: numbered (k + 1) later).map (·.seq) =
        List.range' (k + 1) (later.length + 1) := by
      rw [List.map_cons, numbered_seqs, List.range'_succ]
    rw [hseqs, List.getLast?_range', length_of_drop hout, if_neg (by omega), Option.getD_some]
    omega

/-- The bytes of the chunks are the end of the output. -/
theorem EndOf.suffix (h : EndOf out chunks) : (chunks.map (·.bytes)).flatten <:+ out.flatten := by
  obtain ⟨rfl, rfl⟩ | ⟨k, chunk, t, later, hout, ⟨u, rfl⟩, rfl⟩ := h
  · exact List.suffix_rfl
  · refine ⟨(out.take k).flatten ++ u, ?_⟩
    have hsplit : out.flatten = (out.take k).flatten ++ ((u ++ t) ++ later.flatten) := by
      rw [← List.flatten_cons, ← hout, ← List.flatten_append, List.take_append_drop]
    rw [hsplit, List.map_cons, numbered_bytes, List.flatten_cons]
    simp only [List.append_assoc]

theorem EndOf.push (h : EndOf out chunks) (bytes : Bytes) :
    EndOf (out ++ [bytes]) (chunks ++ [{ seq := out.length + 1, bytes }]) := by
  obtain ⟨rfl, rfl⟩ | ⟨k, chunk, t, later, hout, ht, rfl⟩ := h
  · exact .inr ⟨0, bytes, bytes, [], rfl, List.suffix_rfl, rfl⟩
  · have hlen := length_of_drop hout
    refine .inr ⟨k, chunk, t, later ++ [bytes], ?_, ht, ?_⟩
    · rw [List.drop_append_of_le_length (by omega), hout, List.cons_append]
    · rw [List.cons_append, numbered_append, hlen]
      rfl

theorem numbered_push {afterSeq : Nat} (h : afterSeq ≤ out.length) (bytes : Bytes) :
    numbered afterSeq ((out ++ [bytes]).drop afterSeq) =
      numbered afterSeq (out.drop afterSeq) ++ [{ seq := out.length + 1, bytes }] := by
  have hlen : afterSeq + (out.drop afterSeq).length = out.length := by
    rw [List.length_drop]
    omega
  rw [List.drop_append_of_le_length h, numbered_append, hlen]
  rfl

/-! ## The invariant -/

/-- No boundary of a delta lies in the future. -/
structure Viewer.Ok (out : List Bytes) (v : Viewer) : Prop extends v.Exact out where
  le : ∀ afterSeq, v.afterSeq = some afterSeq → afterSeq ≤ out.length

/-- The ring has what was drawn last, and every viewer what it is owed. -/
structure Inv (s : State) : Prop where
  ring : Holds s.session.ring s.session.out
  viewers : ∀ v ∈ s.viewers, v.Ok s.session.out

/-- A chunk goes to the queue of a viewer; a full one has lagged. -/
theorem Viewer.Ok.send (h : v.Ok out) (bytes : Bytes) :
    (v.send capacity { seq := out.length + 1, bytes }).Ok (out ++ [bytes]) := by
  have hle : ∀ afterSeq, v.afterSeq = some afterSeq → afterSeq ≤ (out ++ [bytes]).length := by
    intro afterSeq ha
    have := h.le afterSeq ha
    rw [List.length_append]
    omega
  unfold Viewer.send
  by_cases hroom : v.queue.length < capacity
  · rw [if_pos hroom]
    refine ⟨⟨fun hl => ?_, h.boundary⟩, hle⟩
    have hc := h.complete hl
    have hstream : ({ v with queue := v.queue ++ [⟨out.length + 1, bytes⟩] } : Viewer).stream =
        v.stream ++ [⟨out.length + 1, bytes⟩] := by
      simp only [Viewer.stream, List.append_assoc]
    unfold Viewer.Complete at hc ⊢
    rw [hstream]
    dsimp only
    cases ha : v.afterSeq with
    | none =>
      rw [ha] at hc
      exact hc.push bytes
    | some afterSeq =>
      rw [ha] at hc
      dsimp only at hc ⊢
      rw [hc, numbered_push (h.le afterSeq ha)]
  · rw [if_neg hroom]
    exact ⟨⟨fun hl => absurd hl (by simp), h.boundary⟩, hle⟩

theorem Viewer.stream_recv (v : Viewer) : v.recv.stream = v.stream := by
  unfold Viewer.recv
  split
  · rfl
  · next hq => simp [Viewer.stream, hq]

/-- The viewer takes the next chunk. -/
theorem Viewer.Ok.recv (h : v.Ok out) : v.recv.Ok out := by
  have hframe : v.recv.afterSeq = v.afterSeq ∧ v.recv.chunks = v.chunks ∧
      v.recv.throughSeq = v.throughSeq ∧ v.recv.lagged = v.lagged := by
    unfold Viewer.recv
    split <;> exact ⟨rfl, rfl, rfl, rfl⟩
  obtain ⟨ha, hc, ht, hl⟩ := hframe
  refine ⟨⟨fun hn => ?_, ?_⟩, ?_⟩
  · have hcomplete := h.complete (hl ▸ hn)
    unfold Viewer.Complete at hcomplete ⊢
    rw [ha, v.stream_recv]
    exact hcomplete
  · rw [ht, h.boundary, Viewer.lastSeq, Viewer.lastSeq, hc, ha]
  · rw [ha]
    exact h.le

/-- No chunk has a number and waits for the lock when a viewer subscribes. A delta is not given for
a boundary that lies in the future or has aged out. -/
def CutOk (s : State) : Op → Prop
  | .snapshotAndSubscribe => s.session.drawn = none
  | .deltaSinceAndSubscribe afterSeq =>
    s.session.drawn = none ∨ s.session.throughSeq < afterSeq ∨
      afterSeq + 1 < s.session.ring.minFullSeq
  | _ => True

instance : DecidablePred (CutOk s) := fun op =>
  match op with
  | .snapshotAndSubscribe => inferInstanceAs (Decidable (_ = _))
  | .deltaSinceAndSubscribe _ => inferInstanceAs (Decidable (_ ∨ _))
  | .draw _ | .publish | .recv _ => .isTrue trivial

theorem throughSeq_of_none {s : Session} (h : s.drawn = none) : s.throughSeq = s.out.length := by
  rw [Session.throughSeq, h]
  rfl

/-- A chunk goes to the ring and to all viewers under one lock. -/
theorem Inv.publish (h : Inv s) : Inv (s.publish cap capacity) := by
  unfold State.publish
  cases hd : s.session.drawn with
  | none => exact h
  | some bytes =>
    have hs : (s.session.publish cap).out = s.session.out ++ [bytes] ∧
        (s.session.publish cap).ring =
        s.session.ring.push { seq := s.session.out.length + 1, bytes } cap := by
      simp only [Session.publish, hd, and_self]
    obtain ⟨hout, hring⟩ := hs
    refine ⟨?_, fun v hv => ?_⟩
    · rw [hout, hring]
      exact h.ring.push bytes cap
    · obtain ⟨v, hm, rfl⟩ := List.mem_map.mp hv
      rw [hout]
      exact (h.viewers v hm).send bytes

theorem Inv.subscribe (h : Inv s) (hv : v.Ok s.session.out) :
    Inv { s with viewers := s.viewers ++ [v] } where
  ring := h.ring
  viewers w hw := by
    obtain hw | hw := List.mem_append.mp hw
    · exact h.viewers w hw
    · rw [List.mem_singleton.mp hw]
      exact hv

theorem Inv.snapshotAndSubscribe (h : Inv s) (hd : s.session.drawn = none) :
    Inv s.snapshotAndSubscribe := by
  have hend := EndOf.of_holds h.ring
  apply h.subscribe
  refine ⟨⟨fun _ => ?_, ?_⟩, fun _ ha => by cases ha⟩
  · simpa [Viewer.Complete, Viewer.stream] using hend
  · rw [throughSeq_of_none hd, Viewer.lastSeq]
    exact hend.lastSeq.symm

/-- A delta ends where the receiver begins. -/
theorem Inv.deltaSinceAndSubscribe (h : Inv s) {afterSeq : Nat}
    (hs : CutOk s (.deltaSinceAndSubscribe afterSeq)) :
    Inv (s.deltaSinceAndSubscribe afterSeq) := by
  unfold State.deltaSinceAndSubscribe
  split
  · exact h
  next chunks throughSeq hdelta =>
  obtain ⟨hchunks, hthrough⟩ := Session.deltaSince_eq h.ring hdelta
  -- The boundary is neither in the future nor aged out, since there is a delta.
  have hle : ¬ s.session.throughSeq < afterSeq := by
    intro hlt
    rw [Session.deltaSince, if_pos hlt] at hdelta
    cases hdelta
  have hfull : ¬ afterSeq + 1 < s.session.ring.minFullSeq := by
    intro hlt
    rw [Session.deltaSince, if_neg hle, ScrollbackRing.since, if_pos hlt] at hdelta
    cases hdelta
  have hd : s.session.drawn = none := by
    obtain hd | hlt | hlt := hs
    · exact hd
    · exact absurd hlt hle
    · exact absurd hlt hfull
  rw [throughSeq_of_none hd] at hle hthrough
  apply h.subscribe
  refine ⟨⟨fun _ => ?_, ?_⟩, fun n hn => ?_⟩
  · simp [Viewer.Complete, Viewer.stream, hchunks]
  · rw [Viewer.lastSeq, hchunks, numbered_seqs, List.getLast?_range', List.length_drop]
    by_cases heq : afterSeq = s.session.out.length
    · simp [heq, hthrough]
    · rw [if_neg (by omega), hthrough, Option.getD_some]
      dsimp only
      omega
  · cases hn
    omega

theorem Inv.step (h : Inv s) {op : Op} (hs : CutOk s op) : Inv (s.step cap capacity op) := by
  cases op with
  | draw bytes =>
    have hsame : (s.session.draw bytes).out = s.session.out ∧
        (s.session.draw bytes).ring = s.session.ring := by
      unfold Session.draw
      split <;> exact ⟨rfl, rfl⟩
    simp only [State.step]
    refine ⟨?_, fun v hv => ?_⟩
    · rw [hsame.1, hsame.2]
      exact h.ring
    · rw [hsame.1]
      exact h.viewers v hv
  | publish => exact h.publish
  | snapshotAndSubscribe => exact h.snapshotAndSubscribe hs
  | deltaSinceAndSubscribe afterSeq => exact h.deltaSinceAndSubscribe hs
  | recv i =>
    refine ⟨h.ring, fun v hv => ?_⟩
    obtain ⟨j, hj⟩ := List.mem_iff_getElem?.mp hv
    simp only [State.step, List.getElem?_modify] at hj
    obtain ⟨w, hw, rfl⟩ := Option.map_eq_some_iff.mp hj
    have hok := h.viewers w (List.mem_of_getElem? hw)
    split
    · exact hok.recv
    · exact hok

theorem inv_init : Inv {} where
  ring := holds_nil
  viewers _ hv := by cases hv

/-- Where no chunk waits for the lock when a viewer subscribes, every viewer has an exact cut. The
bytes of a snapshot and of what follows are then the end of the output. -/
theorem subscription_exact (cap capacity : Nat) (ops : List Op)
    (ha : Run.Along (fun s op => State.step s cap capacity op) CutOk {} ops) :
    ∀ v ∈ (State.run {} cap capacity ops).viewers,
      v.Exact (State.run {} cap capacity ops).session.out ∧
      (v.afterSeq = none → v.lagged = false →
        v.snap ++ ((v.received ++ v.queue).map (·.bytes)).flatten <:+
          (State.run {} cap capacity ops).session.out.flatten) := by
  have hinv : Inv (State.run {} cap capacity ops) :=
    ha.induction inv_init fun _ _ h hs => h.step hs
  intro v hv
  have hexact := (hinv.viewers v hv).toExact
  refine ⟨hexact, fun hsnap hlag => ?_⟩
  have hend := hexact.complete hlag
  rw [Viewer.Complete, hsnap] at hend
  have hsuffix := hend.suffix
  rw [Viewer.stream, List.map_append, List.flatten_append] at hsuffix
  exact hsuffix

/-- Three chunks; a viewer before the first and one after the second, and one with a delta. -/
theorem subscription_exact_run :
    Run.Along (fun s op => State.step s 8 2 op) CutOk {}
      [.snapshotAndSubscribe, .draw [1, 2], .publish, .draw [3], .publish, .snapshotAndSubscribe,
        .deltaSinceAndSubscribe 1, .draw [4], .recv 0, .publish] ∧
    ∀ v ∈ (State.run {} 8 2
      [.snapshotAndSubscribe, .draw [1, 2], .publish, .draw [3], .publish, .snapshotAndSubscribe,
        .deltaSinceAndSubscribe 1, .draw [4], .recv 0, .publish]).viewers,
      v.lagged = false → v.Complete [[1, 2], [3], [4]] := by
  have ha : Run.Along (fun s op => State.step s 8 2 op) CutOk {}
      [.snapshotAndSubscribe, .draw [1, 2], .publish, .draw [3], .publish, .snapshotAndSubscribe,
        .deltaSinceAndSubscribe 1, .draw [4], .recv 0, .publish] := by
    decide
  exact ⟨ha, fun v hv => (subscription_exact 8 2 _ ha v hv).1.complete⟩

/-- The chunk has a number when the viewer takes its snapshot, and gets into the ring afterwards:
the snapshot is empty and says that it ends with chunk 1. A viewer that resumes after chunk 1 never
gets it. -/
theorem snapshot_counts_drawn :
    ¬ (∀ v ∈ (State.run {} 8 2 [.draw [1], .snapshotAndSubscribe, .publish]).viewers,
      v.Exact (State.run {} 8 2 [.draw [1], .snapshotAndSubscribe, .publish]).session.out) ∧
    (State.run {} 8 2 [.draw [1], .snapshotAndSubscribe, .publish]).viewers.map
      (fun v => (v.chunks, v.throughSeq)) = [([], 1)] ∧
    (State.run {} 8 2 [.draw [1], .snapshotAndSubscribe, .publish]).session.deltaSince 1 =
      some ([], 1) := by
  refine ⟨fun h => ?_, by decide, by decide⟩
  have hv := h { chunks := [], throughSeq := 1, queue := [⟨1, [1]⟩] } (by decide)
  have hboundary := hv.boundary
  simp [Viewer.lastSeq] at hboundary

end Subscribe

end Portty
