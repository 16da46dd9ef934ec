import Portty.Lib.Chunks
import Portty.Transport.Types

/-!
# The scrollback of a session (`session.rs`)

The chunks of a session's output are numbered from 1 on. `ScrollbackRing` keeps the last ones within
a number of bytes; of the oldest one it may keep only the end. `Holds r out` says that the ring `r`
is what is kept of the output `out`.

* `Holds.push`: pushing the next chunk.
* `Holds.concat_suffix`: a snapshot is the end of the output.
* `Holds.since_eq`: a delta is all the chunks after a number.

`push_output` draws the number of a chunk before it takes the lock under which the chunk is pushed
and sent. In between, a snapshot counts the chunk and does not have it.
-/

namespace Portty

namespace Scrollback

open Chunks

/-- A chunk of the output under its number. -/
structure OutputChunk where
  seq : Nat
  bytes : Bytes
  deriving DecidableEq

/-- The newest chunks, of at most so many bytes. -/
structure ScrollbackRing where
  chunks : List OutputChunk := []
  bytes : Nat := 0
  /-- From this number on the chunks are complete. -/
  minFullSeq : Nat := 0
  deriving DecidableEq

namespace ScrollbackRing

/-- The `while` loop of `push`: whole chunks leave the ring, but never the last one. -/
def evict (cap : Nat) : List OutputChunk → Nat → Nat → ScrollbackRing
  | old :: next :: rest, bytes, minFullSeq =>
    if cap < bytes then evict cap (next :: rest) (bytes - old.bytes.length) (old.seq + 1)
    else { chunks := old :: next :: rest, bytes, minFullSeq }
  | chunks, bytes, minFullSeq => { chunks, bytes, minFullSeq }

/-- One chunk that is too long loses its front. -/
def trim (cap : Nat) (r : ScrollbackRing) : ScrollbackRing :=
  match r.chunks with
  | [] => r
  | front :: rest =>
    if cap < r.bytes then
      let excess := r.bytes - cap
      { chunks := { front with bytes := front.bytes.drop excess } :: rest
        bytes := r.bytes - excess
        minFullSeq := front.seq + 1 }
    else r

/-- A chunk is added, and the oldest go until the rest fits. -/
def push (r : ScrollbackRing) (chunk : OutputChunk) (cap : Nat) : ScrollbackRing :=
  trim cap (evict cap (r.chunks ++ [chunk]) (r.bytes + chunk.bytes.length) r.minFullSeq)

/-- Every byte that is kept. -/
def concat (r : ScrollbackRing) : Bytes := (r.chunks.map (·.bytes)).flatten

/-- The chunks after a number, if all of them are complete. -/
def since (r : ScrollbackRing) (afterSeq : Nat) : Option (List OutputChunk) :=
  if afterSeq + 1 < r.minFullSeq then none else some (r.chunks.filter (afterSeq < ·.seq))

end ScrollbackRing

/-! ## What the ring holds -/

/-- The chunks that follow the first `k`. -/
def numbered (k : Nat) : List Bytes → List OutputChunk
  | [] => []
  | bytes :: later => { seq := k + 1, bytes } :: numbered (k + 1) later

variable {k cap : Nat} {out later : List Bytes} {r : ScrollbackRing}

@[simp] theorem numbered_bytes (k : Nat) (out : List Bytes) :
    (numbered k out).map (·.bytes) = out := by
  induction out generalizing k with
  | nil => rfl
  | cons bytes out ih => rw [numbered, List.map_cons, ih]

theorem numbered_append (k : Nat) (out later : List Bytes) :
    numbered k (out ++ later) = numbered k out ++ numbered (k + out.length) later := by
  induction out generalizing k with
  | nil => rfl
  | cons bytes out ih =>
    rw [List.cons_append, numbered, numbered, ih, List.cons_append, List.length_cons]
    congr 3
    omega

theorem seq_of_mem_numbered {chunk : OutputChunk} (h : chunk ∈ numbered k out) : k < chunk.seq := by
  induction out generalizing k with
  | nil => cases h
  | cons bytes out ih =>
    obtain rfl | h := List.mem_cons.mp h
    · exact Nat.lt_succ_self k
    · have := ih h
      omega

/-- The chunks after a number. -/
theorem filter_numbered {afterSeq : Nat} (h : k ≤ afterSeq) :
    (numbered k out).filter (afterSeq < ·.seq) = numbered afterSeq (out.drop (afterSeq - k)) := by
  induction out generalizing k with
  | nil => simp [numbered]
  | cons bytes out ih =>
    obtain rfl | hlt := Nat.eq_or_lt_of_le h
    · rw [Nat.sub_self, List.drop_zero, List.filter_eq_self]
      intro chunk hc
      simpa using seq_of_mem_numbered hc
    · have hdrop : (bytes :: out).drop (afterSeq - k) = out.drop (afterSeq - (k + 1)) := by
        rw [show afterSeq - k = (afterSeq - (k + 1)) + 1 by omega, List.drop_succ_cons]
      rw [numbered, List.filter_cons_of_neg (by simp; omega), ih hlt, hdrop]

/-- The ring holds the chunks after the first `k`, and of the oldest one the end `t`. -/
structure HoldsFrom (r : ScrollbackRing) (out : List Bytes) (k : Nat) (chunk t : Bytes)
    (later : List Bytes) : Prop where
  out : out.drop k = chunk :: later
  chunks : r.chunks = { seq := k + 1, bytes := t } :: numbered (k + 1) later
  suffix : t <:+ chunk
  evicted : k = 0 ∨ k + 1 ≤ r.minFullSeq
  full : r.minFullSeq ≤ k + 1 → t = chunk
  bytes : r.bytes = r.concat.length

/-- The ring is what is kept of the output. -/
def Holds (r : ScrollbackRing) (out : List Bytes) : Prop :=
  (out = [] ∧ r = {}) ∨ ∃ k chunk t later, HoldsFrom r out k chunk t later

theorem holds_nil : Holds {} [] := .inl ⟨rfl, rfl⟩

/-- Whole chunks go, the oldest first. -/
theorem HoldsFrom.evict (cap : Nat) {chunk t : Bytes} {bytes minFullSeq : Nat}
    (h : HoldsFrom { chunks := { seq := k + 1, bytes := t } :: numbered (k + 1) later, bytes, minFullSeq }
      out k chunk t later) :
    let r := ScrollbackRing.evict cap ({ seq := k + 1, bytes := t } :: numbered (k + 1) later) bytes
      minFullSeq
    (∃ k' chunk' t' later', HoldsFrom r out k' chunk' t' later') ∧
      (cap < r.bytes → r.chunks.length = 1) := by
  induction later generalizing k chunk t bytes minFullSeq with
  | nil => exact ⟨⟨k, chunk, t, [], h⟩, fun _ => rfl⟩
  | cons next later ih =>
    simp only [numbered, ScrollbackRing.evict]
    split
    · apply ih
      show HoldsFrom _ out (k + 1) next next later
      refine ⟨?_, rfl, List.suffix_rfl, .inr (Nat.le_refl _), fun _ => rfl, ?_⟩
      · have := congrArg (List.drop 1) h.out
        simpa [Nat.add_comm 1 k] using this
      · have := h.bytes
        simp only [ScrollbackRing.concat, numbered, List.map_cons, List.flatten_cons,
          List.length_append] at this ⊢
        omega
    · next hle => exact ⟨⟨k, chunk, t, next :: later, h⟩, fun hlt => absurd hlt hle⟩

/-- Of a last chunk that is too long, the end stays. -/
theorem HoldsFrom.trim {chunk t : Bytes} (h : HoldsFrom r out k chunk t later)
    (hone : cap < r.bytes → r.chunks.length = 1) : Holds (r.trim cap) out := by
  unfold ScrollbackRing.trim
  simp only [h.chunks]
  split
  · next hlt =>
    obtain rfl : later = [] := by
      have := hone hlt
      rw [h.chunks] at this
      cases later with
      | nil => rfl
      | cons next later => simp [numbered] at this
    refine .inr ⟨k, chunk, t.drop (r.bytes - cap), [], ⟨h.out, rfl, ?_, .inr ?_, fun hle => ?_, ?_⟩⟩
    · exact (List.drop_suffix _ _).trans h.suffix
    · exact Nat.le_succ _
    · exact absurd hle (by simp)
    · have := h.bytes
      simp only [ScrollbackRing.concat, h.chunks, numbered, List.map_cons, List.map_nil,
        List.flatten_cons, List.flatten_nil, List.append_nil, List.length_drop] at this ⊢
      omega
  · exact .inr ⟨k, chunk, t, later, h⟩

theorem HoldsFrom.length_out {chunk t : Bytes} (h : HoldsFrom r out k chunk t later) :
    out.length = k + 1 + later.length := by
  have hk : k < out.length := by
    by_contra hge
    have := h.out
    rw [List.drop_eq_nil_of_le (by omega)] at this
    cases this
  have := congrArg List.length h.out
  rw [List.length_drop, List.length_cons] at this
  omega

/-- The next chunk is pushed. -/
theorem Holds.push (h : Holds r out) (bytes : Bytes) (cap : Nat) :
    Holds (r.push { seq := out.length + 1, bytes } cap) (out ++ [bytes]) := by
  have hlast : ∃ k chunk t later,
      HoldsFrom { chunks := r.chunks ++ [{ seq := out.length + 1, bytes }]
                  bytes := r.bytes + bytes.length
                  minFullSeq := r.minFullSeq } (out ++ [bytes]) k chunk t later := by
    obtain ⟨rfl, rfl⟩ | ⟨k, chunk, t, later, h⟩ := h
    · exact ⟨0, bytes, bytes, [],
        ⟨rfl, rfl, List.suffix_rfl, .inl rfl, fun _ => rfl, by simp [ScrollbackRing.concat]⟩⟩
    · have hlen := h.length_out
      refine ⟨k, chunk, t, later ++ [bytes], ⟨?_, ?_, h.suffix, h.evicted, h.full, ?_⟩⟩
      · rw [List.drop_append_of_le_length (by omega), h.out, List.cons_append]
      · rw [h.chunks, numbered_append, ← hlen]
        rfl
      · simp [ScrollbackRing.concat, h.bytes]
  obtain ⟨k, chunk, t, later, hlast⟩ := hlast
  have hchunks := hlast.chunks
  dsimp only at hchunks
  rw [hchunks] at hlast
  obtain ⟨⟨k', chunk', t', later', hev⟩, hone⟩ := hlast.evict cap
  rw [ScrollbackRing.push, hchunks]
  exact hev.trim hone

/-- The oldest chunk is complete, or it is the only incomplete one. -/
def FrontBound (r : ScrollbackRing) : Prop := ∀ front ∈ r.chunks.head?, r.minFullSeq ≤ front.seq + 1

/-- The first complete number is at most the one behind the first chunk. -/
theorem frontBound_evict (cap k : Nat) (later : List Bytes) (t : Bytes) (bytes minFullSeq : Nat)
    (h : minFullSeq ≤ k + 2) :
    let r := ScrollbackRing.evict cap ({ seq := k + 1, bytes := t } :: numbered (k + 1) later) bytes
      minFullSeq
    minFullSeq ≤ r.minFullSeq ∧ FrontBound r := by
  induction later generalizing k t bytes minFullSeq with
  | nil =>
    refine ⟨Nat.le_refl _, fun front hf => ?_⟩
    cases hf
    exact h
  | cons next later ih =>
    simp only [numbered, ScrollbackRing.evict]
    split
    · obtain ⟨hle, hfront⟩ := ih (k + 1) next (bytes - t.length) (k + 2) (by omega)
      exact ⟨h.trans hle, hfront⟩
    · refine ⟨Nat.le_refl _, fun front hf => ?_⟩
      cases hf
      exact h

theorem FrontBound.trim (h : FrontBound r) (cap : Nat) :
    r.minFullSeq ≤ (r.trim cap).minFullSeq ∧ FrontBound (r.trim cap) := by
  unfold ScrollbackRing.trim
  split
  · exact ⟨Nat.le_refl _, h⟩
  next front rest hc =>
  have hfront : r.minFullSeq ≤ front.seq + 1 := h front (by rw [hc]; rfl)
  split
  · refine ⟨hfront, fun f hf => ?_⟩
    cases hf
    exact Nat.le_refl _
  · exact ⟨Nat.le_refl _, h⟩

/-- What is out of the ring stays out of it. -/
theorem FrontBound.push (hf : FrontBound r) (h : Holds r out) (bytes : Bytes) (cap : Nat) :
    r.minFullSeq ≤ (r.push { seq := out.length + 1, bytes } cap).minFullSeq ∧
      FrontBound (r.push { seq := out.length + 1, bytes } cap) := by
  have hev : r.minFullSeq ≤ (ScrollbackRing.evict cap (r.chunks ++ [{ seq := out.length + 1, bytes }])
        (r.bytes + bytes.length) r.minFullSeq).minFullSeq ∧
      FrontBound (ScrollbackRing.evict cap (r.chunks ++ [{ seq := out.length + 1, bytes }])
        (r.bytes + bytes.length) r.minFullSeq) := by
    obtain ⟨rfl, rfl⟩ | ⟨k, chunk, t, later, h⟩ := h
    · exact frontBound_evict cap 0 [] _ _ _ (Nat.zero_le _)
    · have hnumbered : numbered (k + 1) (later ++ [bytes]) =
          numbered (k + 1) later ++ [{ seq := out.length + 1, bytes }] := by
        rw [numbered_append, ← h.length_out]
        rfl
      rw [h.chunks, List.cons_append, ← hnumbered]
      exact frontBound_evict cap _ _ _ _ _ (hf _ (by rw [h.chunks]; rfl))
  obtain ⟨hle, hfront⟩ := hev
  obtain ⟨hle', hfront'⟩ := hfront.trim cap
  exact ⟨hle.trans hle', hfront'⟩

/-- A snapshot is the end of the output. -/
theorem Holds.concat_suffix (h : Holds r out) : r.concat <:+ out.flatten := by
  obtain ⟨rfl, rfl⟩ | ⟨k, chunk, t, later, h⟩ := h
  · exact List.suffix_rfl
  · have hout : out.flatten = (out.take k).flatten ++ (chunk ++ later.flatten) := by
      rw [← List.flatten_cons, ← h.out, ← List.flatten_append, List.take_append_drop]
    rw [ScrollbackRing.concat, h.chunks, List.map_cons, numbered_bytes, List.flatten_cons, hout]
    obtain ⟨u, rfl⟩ := h.suffix
    exact ⟨(out.take k).flatten ++ u, by simp⟩

/-- A delta is all the chunks after a number. -/
theorem Holds.since_eq (h : Holds r out) {afterSeq : Nat} {chunks : List OutputChunk}
    (hs : r.since afterSeq = some chunks) : chunks = numbered afterSeq (out.drop afterSeq) := by
  unfold ScrollbackRing.since at hs
  split at hs
  · cases hs
  next hfull =>
  cases hs
  obtain ⟨rfl, rfl⟩ | ⟨k, chunk, t, later, h⟩ := h
  · simp [numbered]
  have hk : k ≤ afterSeq := by
    have := h.evicted
    omega
  rw [h.chunks]
  obtain rfl | hlt := Nat.eq_or_lt_of_le hk
  · rw [h.full (by omega), h.out, numbered, List.filter_eq_self]
    intro c hc
    obtain rfl | hc := List.mem_cons.mp hc
    · simp
    · have := seq_of_mem_numbered hc
      simp only [decide_eq_true_eq]
      omega
  · have hdrop : out.drop afterSeq = later.drop (afterSeq - (k + 1)) := by
      have := congrArg (List.drop (afterSeq - k)) h.out
      rw [List.drop_drop, show k + (afterSeq - k) = afterSeq by omega,
        show afterSeq - k = (afterSeq - (k + 1)) + 1 by omega, List.drop_succ_cons] at this
      exact this
    rw [List.filter_cons_of_neg (by simp; omega), filter_numbered hlt, hdrop]

/-! ## Sessions -/

/-- The output of a session. -/
structure Session where
  /-- Every chunk that was pushed and sent. -/
  out : List Bytes := []
  ring : ScrollbackRing := {}
  /-- A chunk that has a number and is not in the ring yet. -/
  drawn : Option Bytes := none
  size : Nat × Nat := (80, 24)
  /-- An agent session has no terminal. -/
  agent : Bool := false
  /-- The manager has the session. -/
  listed : Bool := false

namespace Session

variable (s : Session)

/-- `push_output` up to the lock. -/
def draw (bytes : Bytes) : Session := if s.drawn.isNone then { s with drawn := some bytes } else s

/-- `push_output` under the lock. -/
def publish (cap : Nat) : Session :=
  match s.drawn with
  | none => s
  | some bytes =>
    { s with
      out := s.out ++ [bytes]
      ring := s.ring.push { seq := s.out.length + 1, bytes } cap
      drawn := none }

/-- `next_output_seq - 1` -/
def throughSeq : Nat := s.out.length + s.drawn.toList.length

/-- The chunks after a number, and the number up to which they are. -/
def deltaSince (afterSeq : Nat) : Option (List OutputChunk × Nat) :=
  if s.throughSeq < afterSeq then none
  else (s.ring.since afterSeq).map fun chunks => (chunks, s.throughSeq)

variable {s} in
theorem deltaSince_eq {afterSeq throughSeq : Nat} {chunks : List OutputChunk}
    (hr : Holds s.ring s.out) (h : s.deltaSince afterSeq = some (chunks, throughSeq)) :
    chunks = numbered afterSeq (s.out.drop afterSeq) ∧ throughSeq = s.throughSeq := by
  unfold deltaSince at h
  split at h
  · cases h
  · obtain ⟨cs, hcs, heq⟩ := Option.map_eq_some_iff.mp h
    cases heq
    exact ⟨hr.since_eq hcs, rfl⟩

/-- Where the scrollback starts in the output. -/
def retainedFrom : Nat := s.out.flatten.length - s.ring.concat.length

theorem concat_eq (h : Holds s.ring s.out) : s.ring.concat = s.out.flatten.drop s.retainedFrom :=
  List.suffix_iff_eq_drop.mp h.concat_suffix

end Session

end Scrollback

end Portty
