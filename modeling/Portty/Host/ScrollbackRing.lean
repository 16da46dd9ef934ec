import Mathlib.Algebra.GroupWithZero.Nat
import Mathlib.Data.List.Induction
import Portty.Host.Scrollback

/-!
# The scrollback ring over any numbers (`session.rs`)

`Scrollback` counts without a bound. Here a number is a `u64`: past the last one an addition panics,
or wraps where the build has no overflow checks (`Overflow`). The numbers only have to go up; they
may have gaps. `Keeps r pushed` says what a ring holds of the chunks that were pushed.

* `push_checked`: a push panics only if it cuts the chunk with the last number of all.
* `Keeps.push`: what one push keeps.
* `ring_complete`: what a snapshot and a delta are worth after any pushes. The number of a delta is
  the client's; `delta_since_and_subscribe` refuses the numbers that have not been drawn, and with
  them the one that overflows.
-/

namespace Portty

namespace Scrollback

/-- `u64::MAX` -/
def u64Max : Nat := 18446744073709551615

/-- What `+` does past `u64::MAX`. -/
inductive Overflow where
  | panics
  | wraps
  deriving DecidableEq

/-- `n + 1` in 64 bits. -/
def Overflow.succ (o : Overflow) (n : Nat) : Option Nat :=
  if n < u64Max then some (n + 1)
  else
    match o with
    | .panics => none
    | .wraps => some 0

theorem Overflow.succ_of_lt (o : Overflow) {n : Nat} (h : n < u64Max) : o.succ n = some (n + 1) :=
  if_pos h

namespace ScrollbackRing

/-- `evict`, with the numbers in 64 bits. -/
def evictIn (o : Overflow) (cap : Nat) : List OutputChunk → Nat → Nat → Option ScrollbackRing
  | old :: next :: rest, bytes, minFullSeq =>
    if cap < bytes then
      (o.succ old.seq).bind fun n => evictIn o cap (next :: rest) (bytes - old.bytes.length) n
    else some { chunks := old :: next :: rest, bytes, minFullSeq }
  | chunks, bytes, minFullSeq => some { chunks, bytes, minFullSeq }

/-- `trim`, with the numbers in 64 bits. -/
def trimIn (o : Overflow) (cap : Nat) (r : ScrollbackRing) : Option ScrollbackRing :=
  match r.chunks with
  | [] => some r
  | front :: rest =>
    if cap < r.bytes then
      let excess := r.bytes - cap
      (o.succ front.seq).map fun n =>
        { chunks := { front with bytes := front.bytes.drop excess } :: rest
          bytes := r.bytes - excess
          minFullSeq := n }
    else some r

/-- `push`, with the numbers in 64 bits. -/
def pushIn (o : Overflow) (r : ScrollbackRing) (chunk : OutputChunk) (cap : Nat) :
    Option ScrollbackRing :=
  (evictIn o cap (r.chunks ++ [chunk]) (r.bytes + chunk.bytes.length) r.minFullSeq).bind (trimIn o cap)

/-- `since`, with the numbers in 64 bits. -/
def sinceIn (o : Overflow) (r : ScrollbackRing) (afterSeq : Nat) :
    Option (Option (List OutputChunk)) :=
  (o.succ afterSeq).map fun n =>
    if n < r.minFullSeq then none else some (r.chunks.filter (afterSeq < ·.seq))

/-- `delta_since_and_subscribe`, up to what it subscribes to. -/
def deltaSinceIn (o : Overflow) (r : ScrollbackRing) (nextOutputSeq afterSeq : Nat) :
    Option (Option (List OutputChunk)) :=
  if nextOutputSeq - 1 < afterSeq then some none else sinceIn o r afterSeq

/-- Chunks are pushed, each within the cap beside it. -/
def pushAll (o : Overflow) (pushes : List (OutputChunk × Nat)) : Option ScrollbackRing :=
  pushes.foldlM (fun r p => pushIn o r p.1 p.2) {}

/-! ## Without overflow -/

variable {o : Overflow} {cap bytes minFullSeq : Nat} {r r' : ScrollbackRing}
  {chunks : List OutputChunk}

theorem evictIn_eq (h : ∀ c ∈ chunks.dropLast, c.seq < u64Max) :
    evictIn o cap chunks bytes minFullSeq = some (evict cap chunks bytes minFullSeq) := by
  induction chunks generalizing bytes minFullSeq with
  | nil => rfl
  | cons old chunks ih =>
    cases chunks with
    | nil => rfl
    | cons next rest =>
      have hold : old.seq < u64Max := h old (by simp)
      have hrest : ∀ c ∈ (next :: rest).dropLast, c.seq < u64Max := fun c hc => h c (by simp [hc])
      rw [evictIn, evict, o.succ_of_lt hold, Option.bind_some, ih hrest]
      split <;> rfl

theorem trimIn_eq (h : ∀ c ∈ r.chunks.head?, c.seq < u64Max ∨ r.bytes ≤ cap) :
    trimIn o cap r = some (trim cap r) := by
  obtain ⟨chunks, bytes, minFullSeq⟩ := r
  cases chunks with
  | nil => rfl
  | cons front rest =>
    unfold trimIn trim
    by_cases hlt : cap < bytes
    · have hfront := (h front rfl).resolve_right (Nat.not_le_of_lt hlt)
      simp only [if_pos hlt, o.succ_of_lt hfront, Option.map_some]
    · simp only [if_neg hlt]

theorem sinceIn_eq {afterSeq : Nat} (h : afterSeq < u64Max) :
    sinceIn o r afterSeq = some (r.since afterSeq) := by
  rw [sinceIn, o.succ_of_lt h]
  rfl

/-! ## What the ring keeps -/

/-- The bytes that are kept of a chunk, by its number. -/
def kept (r : ScrollbackRing) (seq : Nat) : Bytes :=
  ((r.chunks.filter (·.seq = seq)).map (·.bytes)).flatten

/-- A byte of the chunk was evicted or cut off. -/
def Lost (r : ScrollbackRing) (c : OutputChunk) : Prop := (r.kept c.seq).length < c.bytes.length

end ScrollbackRing

open ScrollbackRing

variable {o : Overflow} {cap : Nat} {r : ScrollbackRing} {gone later pushed : List OutputChunk}
variable {c front chunk : OutputChunk} {t : Bytes}

/-- The chunks of `gone` have left the ring; of `front` it has the end `t`. -/
structure KeepsFrom (r : ScrollbackRing) (gone : List OutputChunk) (front : OutputChunk) (t : Bytes)
    (later : List OutputChunk) : Prop where
  chunks : r.chunks = { front with bytes := t } :: later
  suffix : t <:+ front.bytes
  gone : ∀ c ∈ gone, c.seq < r.minFullSeq
  full : t = front.bytes ∨ front.seq < r.minFullSeq
  bytes : r.bytes = r.concat.length

/-- What the boundary of the complete chunks stands for: a chunk right below it that lost a byte. -/
def Bounds (minFullSeq : Nat) (gone : List OutputChunk) (front : OutputChunk) (t : Bytes) : Prop :=
  minFullSeq = 0 ∨ ∃ c, c.seq + 1 = minFullSeq ∧ (c ∈ gone ∧ c.bytes ≠ [] ∨ c = front ∧ t ≠ front.bytes)

/-- The ring is what is kept of the chunks. -/
def Keeps (r : ScrollbackRing) (pushed : List OutputChunk) : Prop :=
  (pushed = [] ∧ r = {}) ∨ ∃ gone front t later, pushed = gone ++ front :: later ∧
    KeepsFrom r gone front t later ∧ Bounds r.minFullSeq gone front t

theorem keeps_nil : Keeps {} [] := .inl ⟨rfl, rfl⟩

theorem KeepsFrom.concat (h : KeepsFrom r gone front t later) :
    r.concat = t ++ (later.map (·.bytes)).flatten := by
  rw [ScrollbackRing.concat, h.chunks, List.map_cons, List.flatten_cons]

/-- The oldest chunk leaves. -/
theorem KeepsFrom.pop {next : OutputChunk} {bytes minFullSeq : Nat}
    (h : KeepsFrom { chunks := { front with bytes := t } :: next :: later, bytes, minFullSeq } gone front t
      (next :: later)) (hseq : ∀ c ∈ gone, c.seq < front.seq) :
    KeepsFrom { chunks := next :: later, bytes := bytes - t.length, minFullSeq := front.seq + 1 }
      (gone ++ [front]) next next.bytes later where
  chunks := rfl
  suffix := List.suffix_rfl
  gone c hc := by
    obtain hc | hc := List.mem_append.mp hc
    · have := hseq c hc
      dsimp only
      omega
    · rw [List.mem_singleton.mp hc]
      exact Nat.lt_succ_self _
  full := .inl rfl
  bytes := by
    have := h.bytes
    simp only [ScrollbackRing.concat, List.map_cons, List.flatten_cons,
      List.length_append] at this ⊢
    omega

/-- What is evicted is a start of what was pushed. -/
theorem Keeps.evict (cap : Nat) {bytes minFullSeq : Nat}
    (hp : (gone ++ front :: later).Pairwise (·.seq < ·.seq))
    (h : KeepsFrom { chunks := { front with bytes := t } :: later, bytes, minFullSeq } gone front t later)
    (hb : cap < bytes ∨ Bounds minFullSeq gone front t) :
    ∃ gone' front' t' later', gone ++ front :: later = gone' ++ front' :: later' ∧
      KeepsFrom (ScrollbackRing.evict cap ({ front with bytes := t } :: later) bytes minFullSeq)
        gone' front' t' later' ∧
      ((ScrollbackRing.evict cap ({ front with bytes := t } :: later) bytes minFullSeq).bytes ≤ cap ∧
          Bounds (ScrollbackRing.evict cap ({ front with bytes := t } :: later) bytes minFullSeq).minFullSeq
            gone' front' t' ∨
        cap < (ScrollbackRing.evict cap ({ front with bytes := t } :: later) bytes minFullSeq).bytes ∧
          later' = []) := by
  induction later generalizing gone front t bytes minFullSeq with
  | nil =>
    refine ⟨gone, front, t, [], rfl, h, ?_⟩
    by_cases hlt : cap < bytes
    · exact .inr ⟨hlt, rfl⟩
    · exact .inl ⟨Nat.le_of_not_lt hlt, hb.resolve_left hlt⟩
  | cons next later ih =>
    rw [ScrollbackRing.evict]
    by_cases hlt : cap < bytes
    · rw [if_pos hlt]
      have hgone : ∀ c ∈ gone, c.seq < front.seq := fun c hc =>
        (List.pairwise_append.mp hp).2.2 c hc front List.mem_cons_self
      have hnext : cap < bytes - t.length ∨ Bounds (front.seq + 1) (gone ++ [front]) next next.bytes := by
        by_cases hle : cap < bytes - t.length
        · exact .inl hle
        · -- The chunk that left made the ring fit, so that it had bytes.
          refine .inr (.inr ⟨front, rfl, .inl ⟨by simp, fun hnil => ?_⟩⟩)
          have hlen := h.suffix.length_le
          rw [hnil, List.length_nil] at hlen
          omega
      have hp' : (gone ++ [front] ++ next :: later).Pairwise (·.seq < ·.seq) := by simpa using hp
      obtain ⟨gone', front', t', later', he, hk, hr⟩ := ih hp' (h.pop hgone) hnext
      exact ⟨gone', front', t', later', by rw [← he]; simp, hk, hr⟩
    · rw [if_neg hlt]
      exact ⟨gone, front, t, next :: later, rfl, h, .inl ⟨Nat.le_of_not_lt hlt, hb.resolve_left hlt⟩⟩

/-- The ring after the loop fits, or has one chunk that is cut. -/
theorem Keeps.trim (he : pushed = gone ++ front :: later) (h : KeepsFrom r gone front t later)
    (hgone : ∀ c ∈ gone, c.seq < front.seq)
    (hr : r.bytes ≤ cap ∧ Bounds r.minFullSeq gone front t ∨ cap < r.bytes ∧ later = []) :
    Keeps (r.trim cap) pushed ∧ (r.trim cap).bytes ≤ cap := by
  unfold ScrollbackRing.trim
  simp only [h.chunks]
  obtain ⟨hle, hb⟩ | ⟨hlt, rfl⟩ := hr
  · rw [if_neg (by omega)]
    exact ⟨.inr ⟨gone, front, t, later, he, h, hb⟩, hle⟩
  · rw [if_pos hlt]
    have hbytes := h.bytes
    rw [h.concat, List.map_nil, List.flatten_nil, List.append_nil] at hbytes
    have hlen := h.suffix.length_le
    refine ⟨.inr ⟨gone, front, t.drop (r.bytes - cap), [], he, ⟨rfl, ?_, fun c hc => ?_, .inr ?_, ?_⟩, ?_⟩, ?_⟩
    · exact (List.drop_suffix _ _).trans h.suffix
    · have := hgone c hc
      dsimp only
      omega
    · exact Nat.lt_succ_self _
    · simp only [ScrollbackRing.concat, List.map_cons, List.map_nil, List.flatten_cons,
        List.flatten_nil, List.append_nil, List.length_drop]
      omega
    · refine .inr ⟨front, rfl, .inr ⟨rfl, fun hcut => ?_⟩⟩
      have := congrArg List.length hcut
      rw [List.length_drop] at this
      omega
    · dsimp only
      omega

/-- The ring with the next chunk, before anything leaves. -/
theorem Keeps.append (h : Keeps r pushed) (chunk : OutputChunk) :
    ∃ gone front t later, pushed ++ [chunk] = gone ++ front :: later ∧
      r.chunks ++ [chunk] = { front with bytes := t } :: later ∧
      KeepsFrom { chunks := { front with bytes := t } :: later, bytes := r.bytes + chunk.bytes.length,
                  minFullSeq := r.minFullSeq } gone front t later ∧
      Bounds r.minFullSeq gone front t := by
  obtain ⟨rfl, rfl⟩ | ⟨gone, front, t, later, rfl, h, hb⟩ := h
  · refine ⟨[], chunk, chunk.bytes, [], rfl, rfl, ⟨rfl, List.suffix_rfl, nofun, .inl rfl, ?_⟩, .inl rfl⟩
    simp [ScrollbackRing.concat]
  · refine ⟨gone, front, t, later ++ [chunk], by simp, by rw [h.chunks]; rfl,
      ⟨rfl, h.suffix, h.gone, h.full, ?_⟩, hb⟩
    have := h.bytes
    rw [h.concat] at this
    simp [ScrollbackRing.concat, this, Nat.add_assoc]

theorem Keeps.push (h : Keeps r pushed) (hp : (pushed ++ [chunk]).Pairwise (·.seq < ·.seq))
    (cap : Nat) :
    Keeps (r.push chunk cap) (pushed ++ [chunk]) ∧ (r.push chunk cap).bytes ≤ cap := by
  obtain ⟨gone, front, t, later, he, hc, hk, hb⟩ := h.append chunk
  rw [ScrollbackRing.push, hc]
  rw [he] at hp ⊢
  obtain ⟨gone', front', t', later', he', hk', hr⟩ := Keeps.evict cap hp hk (.inr hb)
  rw [he'] at hp
  exact Keeps.trim he' hk' (fun c hc => (List.pairwise_append.mp hp).2.2 c hc front' List.mem_cons_self) hr

/-! ## Snapshots and deltas -/

theorem Keeps.bytes (h : Keeps r pushed) : r.bytes = r.concat.length := by
  obtain ⟨rfl, rfl⟩ | ⟨gone, front, t, later, rfl, h, -⟩ := h
  · rfl
  · exact h.bytes

theorem Keeps.concat_suffix (h : Keeps r pushed) : r.concat <:+ (pushed.map (·.bytes)).flatten := by
  obtain ⟨rfl, rfl⟩ | ⟨gone, front, t, later, rfl, h, -⟩ := h
  · exact List.suffix_rfl
  · obtain ⟨cut, hcut⟩ := h.suffix
    refine ⟨(gone.map (·.bytes)).flatten ++ cut, ?_⟩
    rw [h.concat, List.map_append, List.flatten_append, List.map_cons, List.flatten_cons, ← hcut]
    simp only [List.append_assoc]

/-- What is kept of a chunk that is no longer whole is shorter. -/
theorem KeepsFrom.lost (hp : (gone ++ front :: later).Pairwise (·.seq < ·.seq))
    (h : KeepsFrom r gone front t later)
    (hc : c ∈ gone ∧ c.bytes ≠ [] ∨ c = front ∧ t ≠ front.bytes) : r.Lost c := by
  obtain ⟨-, hlater, hgone⟩ := List.pairwise_append.mp hp
  have hfront := (List.pairwise_cons.mp hlater).1
  have hnone : ∀ seq, seq ≤ front.seq → later.filter (·.seq = seq) = [] := fun seq hle => by
    rw [List.filter_eq_nil_iff]
    intro d hd
    have := hfront d hd
    simp only [decide_eq_true_eq]
    omega
  rw [Lost, ScrollbackRing.kept, h.chunks]
  obtain ⟨hc, hne⟩ | ⟨rfl, hne⟩ := hc
  · have hlt : c.seq < front.seq := hgone c hc front List.mem_cons_self
    rw [List.filter_cons_of_neg (by simp; omega), hnone _ (Nat.le_of_lt hlt)]
    exact List.length_pos_of_ne_nil hne
  · rw [List.filter_cons_of_pos (by simp), hnone _ (Nat.le_refl _)]
    have hle := h.suffix.length_le
    have hlen : t.length ≠ c.bytes.length := fun hlen => hne (h.suffix.eq_of_length hlen)
    simp only [List.map_cons, List.map_nil, List.flatten_cons, List.flatten_nil, List.append_nil]
    omega

/-- The answer to a request for the chunks after a number: all of them, or that one of them lost a
byte. -/
def Answers (r : ScrollbackRing) (pushed : List OutputChunk) (afterSeq : Nat) :
    Option (List OutputChunk) → Prop
  | some chunks => chunks = pushed.filter (afterSeq < ·.seq)
  | none => ∃ c ∈ pushed, afterSeq < c.seq ∧ r.Lost c

/-- A request is answered with all that came after, or with nothing. -/
theorem Keeps.answers (h : Keeps r pushed) (hp : pushed.Pairwise (·.seq < ·.seq)) (afterSeq : Nat) :
    Answers r pushed afterSeq (r.since afterSeq) := by
  obtain ⟨rfl, rfl⟩ | ⟨gone, front, t, later, rfl, h, hb⟩ := h
  · rfl
  rw [ScrollbackRing.since]
  by_cases hlt : afterSeq + 1 < r.minFullSeq
  · rw [if_pos hlt]
    obtain h0 | ⟨c, hc, hlost⟩ := hb
    · omega
    · refine ⟨c, ?_, by omega, h.lost hp hlost⟩
      obtain ⟨hc, -⟩ | ⟨rfl, -⟩ := hlost
      · exact List.mem_append_left _ hc
      · exact List.mem_append_right _ List.mem_cons_self
  · rw [if_neg hlt]
    have hgone : gone.filter (afterSeq < ·.seq) = [] := by
      rw [List.filter_eq_nil_iff]
      intro c hc
      have := h.gone c hc
      simp only [decide_eq_true_eq]
      omega
    show _ = _
    rw [List.filter_append, hgone, List.nil_append, h.chunks]
    by_cases hfull : t = front.bytes
    · rw [hfull]
    · have hseq := h.full.resolve_left hfull
      rw [List.filter_cons_of_neg (by simp; omega), List.filter_cons_of_neg (by simp; omega)]

/-! ## Runs -/

theorem Keeps.seq_lt (h : Keeps r pushed) (hp : (pushed ++ [chunk]).Pairwise (·.seq < ·.seq)) :
    ∀ c ∈ r.chunks, c.seq < chunk.seq := by
  have hlast : ∀ c ∈ pushed, c.seq < chunk.seq := fun c hc =>
    (List.pairwise_append.mp hp).2.2 c hc chunk List.mem_cons_self
  intro c hc
  obtain ⟨rfl, rfl⟩ | ⟨gone, front, t, later, rfl, h, -⟩ := h
  · cases hc
  · rw [h.chunks] at hc
    obtain rfl | hc := List.mem_cons.mp hc
    · exact hlast front (by simp)
    · exact hlast c (by simp [hc])

/-- A push does not overflow, unless it cuts the chunk with the last number. -/
theorem push_checked (h : Keeps r pushed) (hp : (pushed ++ [chunk]).Pairwise (·.seq < ·.seq))
    (hmax : chunk.seq < u64Max ∨ chunk.seq = u64Max ∧ chunk.bytes.length ≤ cap) (o : Overflow) :
    r.pushIn o chunk cap = some (r.push chunk cap) := by
  have hle : chunk.seq ≤ u64Max := by omega
  have hdrop : ∀ c ∈ (r.chunks ++ [chunk]).dropLast, c.seq < u64Max := fun c hc => by
    rw [List.dropLast_concat] at hc
    exact Nat.lt_of_lt_of_le (h.seq_lt hp c hc) hle
  rw [ScrollbackRing.pushIn, evictIn_eq hdrop, Option.bind_some, ScrollbackRing.push]
  apply trimIn_eq
  obtain ⟨gone, front, t, later, he, hc, hk, hb⟩ := h.append chunk
  rw [he] at hp
  obtain ⟨gone', front', t', later', he', hk', hr⟩ := Keeps.evict cap hp hk (.inr hb)
  rw [hc]
  intro c hhead
  obtain ⟨hfits, -⟩ | ⟨hlt, rfl⟩ := hr
  · exact .inr hfits
  · -- One chunk is left, the one that was pushed.
    obtain ⟨-, hfront⟩ := List.append_inj' (he.trans he') rfl
    obtain rfl : chunk = front' := by simpa using hfront
    rw [hk'.chunks, List.head?_cons, Option.mem_some] at hhead
    subst hhead
    have hbytes := hk'.bytes
    rw [hk'.concat, List.map_nil, List.flatten_nil, List.append_nil] at hbytes
    have hlen := hk'.suffix.length_le
    exact .inl (hmax.resolve_right fun hlast => by omega)

/-- What was pushed, and the ring after it. -/
theorem keeps_pushAll (o : Overflow) (pushes : List (OutputChunk × Nat))
    (hp : (pushes.map (·.1)).Pairwise (·.seq < ·.seq))
    (hmax : ∀ p ∈ pushes, p.1.seq < u64Max ∨ p.1.seq = u64Max ∧ p.1.bytes.length ≤ p.2) :
    ∃ r, pushAll o pushes = some r ∧ Keeps r (pushes.map (·.1)) ∧ ∀ p ∈ pushes.getLast?,
      r.bytes ≤ p.2 := by
  induction pushes using List.reverseRecOn with
  | nil => exact ⟨{}, rfl, keeps_nil, nofun⟩
  | append_singleton pushes p ih =>
    rw [List.map_append, List.map_singleton] at hp
    obtain ⟨r, hr, hk, -⟩ :=
      ih (List.pairwise_append.mp hp).1 fun q hq => hmax q (List.mem_append_left _ hq)
    refine ⟨r.push p.1 p.2, ?_, ?_, ?_⟩
    · rw [pushAll, List.foldlM_append]
      show (pushAll o pushes).bind _ = _
      rw [hr, Option.bind_some, List.foldlM_cons, push_checked hk hp (hmax p (by simp)) o]
      rfl
    · rw [List.map_append]
      exact (hk.push hp p.2).1
    · intro q hq
      rw [List.getLast?_concat, Option.mem_some] at hq
      subst hq
      exact (hk.push hp _).2

/-- After any pushes the ring is within the cap, a snapshot is the end of the output, and a delta is
complete unless a byte of it is lost. No number that a client sends overflows. -/
theorem ring_complete (o : Overflow) (pushes : List (OutputChunk × Nat))
    (hp : (pushes.map (·.1)).Pairwise (·.seq < ·.seq))
    (hmax : ∀ p ∈ pushes, p.1.seq < u64Max ∨ p.1.seq = u64Max ∧ p.1.bytes.length ≤ p.2) :
    ∃ r, pushAll o pushes = some r ∧ r.bytes = (r.chunks.map (·.bytes.length)).sum ∧
      (∀ p ∈ pushes.getLast?, r.bytes ≤ p.2) ∧ r.concat <:+ (pushes.map (·.1.bytes)).flatten ∧
      (∀ afterSeq : UInt64, afterSeq.toNat < u64Max → ∃ answer, r.sinceIn o afterSeq.toNat = some answer ∧
        Answers r (pushes.map (·.1)) afterSeq.toNat answer) ∧
      ∀ nextOutputSeq afterSeq : UInt64, ∃ answer,
        r.deltaSinceIn o nextOutputSeq.toNat afterSeq.toNat = some answer ∧
        (nextOutputSeq.toNat - 1 < afterSeq.toNat ∧ answer = none ∨
          Answers r (pushes.map (·.1)) afterSeq.toNat answer) := by
  obtain ⟨r, hr, hk, hcap⟩ := keeps_pushAll o pushes hp hmax
  have hsince : ∀ afterSeq : UInt64, afterSeq.toNat < u64Max → ∃ answer,
      r.sinceIn o afterSeq.toNat = some answer ∧ Answers r (pushes.map (·.1)) afterSeq.toNat answer :=
    fun afterSeq hlt => ⟨_, sinceIn_eq hlt, hk.answers hp _⟩
  refine ⟨r, hr, ?_, hcap, ?_, hsince, fun nextOutputSeq afterSeq => ?_⟩
  · rw [hk.bytes, ScrollbackRing.concat, List.length_flatten, List.map_map]
    rfl
  · have hs := hk.concat_suffix
    rw [List.map_map] at hs
    exact hs
  · rw [ScrollbackRing.deltaSinceIn]
    by_cases hlt : nextOutputSeq.toNat - 1 < afterSeq.toNat
    · rw [if_pos hlt]
      exact ⟨none, rfl, .inl ⟨hlt, rfl⟩⟩
    · rw [if_neg hlt]
      have hnext := nextOutputSeq.toNat_lt
      obtain ⟨answer, ha, h⟩ := hsince afterSeq (by rw [u64Max]; omega)
      exact ⟨answer, ha, .inr h⟩

/-- Four bytes are pushed, of which three fit, and one more. -/
def cutPushes : List (OutputChunk × Nat) := [(⟨1, [97, 98, 99, 100]⟩, 3), (⟨2, []⟩, 3)]

theorem ring_complete_cut :
    ∃ r, pushAll .panics cutPushes = some r ∧ r.bytes = (r.chunks.map (·.bytes.length)).sum ∧
      (∀ p ∈ cutPushes.getLast?, r.bytes ≤ p.2) ∧ r.concat <:+ (cutPushes.map (·.1.bytes)).flatten ∧
      (∀ afterSeq : UInt64, afterSeq.toNat < u64Max → ∃ answer, r.sinceIn .panics afterSeq.toNat = some answer ∧
        Answers r (cutPushes.map (·.1)) afterSeq.toNat answer) ∧
      ∀ nextOutputSeq afterSeq : UInt64, ∃ answer,
        r.deltaSinceIn .panics nextOutputSeq.toNat afterSeq.toNat = some answer ∧
        (nextOutputSeq.toNat - 1 < afterSeq.toNat ∧ answer = none ∨
          Answers r (cutPushes.map (·.1)) afterSeq.toNat answer) :=
  ring_complete .panics cutPushes (by decide) (by decide)

/-- The last number of all is one too far: `since` panics, or answers `None` although nothing after
it is lost. -/
theorem since_overflows :
    ∃ r, pushAll .panics cutPushes = some r ∧ pushAll .wraps cutPushes = some r ∧
    r.sinceIn .panics u64Max = none ∧ r.sinceIn .wraps u64Max = some none ∧
    ¬ Answers r (cutPushes.map (·.1)) u64Max none := by
  refine ⟨⟨[⟨1, [98, 99, 100]⟩, ⟨2, []⟩], 3, 2⟩, by decide, by decide, by decide, by decide, ?_⟩
  rintro ⟨c, hc, hlt, -⟩
  have hle : ∀ c ∈ cutPushes.map (·.1), c.seq ≤ u64Max := by decide
  exact absurd (hle c hc) (Nat.not_le_of_lt hlt)

end Scrollback

end Portty
