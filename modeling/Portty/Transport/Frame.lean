import Mathlib.Algebra.GroupWithZero.Nat
import Mathlib.Data.List.Induction
import Portty.Lib.Reads
import Portty.Transport.Types

/-!
# Frames on a byte stream (`frame.rs`)

* `writeFrame`, `readFrame`: as in the source. How many bytes a read returns is up to the system
  (`sizes`).
* `Next`, `readFrame_next`: what `readFrame` does with the bytes that are left.
* `frame_stream`: what was written is read again, and where reading any other stream ends.
-/

namespace Portty.Framing

open Reads

/-- The most bytes of a frame. -/
def maxFrameBytes : Nat := 1024 * 1024

/-- Why a frame is not read. -/
inductive TransportError where
  | closed
  | frameTooLarge (size : BitVec 32)
  | malformedFrame
  /-- `Io` with `UnexpectedEof`. -/
  | unexpectedEof
  deriving DecidableEq

/-- A frame, as `write_frame` takes it and `read_frame` returns it. -/
structure Frame where
  version : BitVec 16
  payload : Bytes
  deriving DecidableEq

/-- What `write_frame` returns, and what has been written by then. -/
def writeFrame (out : Bytes) (frame : Frame) : Except TransportError Unit × Bytes :=
  let total := 2 + frame.payload.length
  if total > maxFrameBytes then (.error (.frameTooLarge (.ofNat 32 total)), out)
  else (.ok (), out ++ toBytes 4 (.ofNat 32 total) ++ toBytes 2 frame.version ++ frame.payload)

/-- The number that bytes are, most significant first. -/
def word (bytes : Bytes) : Nat := bytes.foldl (fun n b => 256 * n + b.toNat) 0

variable (sizes : Nat → Nat)

/-- The length of a frame, and then its bytes. -/
def readFrame (r : Reader UInt8) : Except TransportError Frame × Reader UInt8 :=
  match readExact sizes 4 r with
  | (none, r) => (.error .closed, r)
  | (some header, r) =>
    let len := word header
    if len < 2 then (.error .malformedFrame, r)
    else if len > maxFrameBytes then (.error (.frameTooLarge (.ofNat 32 len)), r)
    else
      match readExact sizes 2 r with
      | (none, r) => (.error .unexpectedEof, r)
      | (some version, r) =>
        match readExact sizes (len - 2) r with
        | (none, r) => (.error .unexpectedEof, r)
        | (some payload, r) => (.ok ⟨.ofNat 16 (word version), payload⟩, r)

/-- Frames are read until there is an error. -/
def readAll : Nat → Reader UInt8 → List Frame × Option TransportError × Reader UInt8
  | 0, r => ([], none, r)
  | fuel + 1, r =>
    match readFrame sizes r with
    | (.error e, r) => ([], some e, r)
    | (.ok frame, r) =>
      let (frames, e, r) := readAll fuel r
      (frame :: frames, e, r)

/-- A frame takes at least six bytes. -/
def readStream (bytes : Bytes) : List Frame × Option TransportError × Reader UInt8 :=
  readAll sizes (bytes.length + 1) ⟨bytes, 0⟩

/-- Payloads are written one after another. -/
def writeStream (frames : List Frame) : Bytes :=
  frames.foldl (fun out frame => (writeFrame out frame).2) []

/-! ## What is to hold -/

/-- `read_frame` does not take this length. -/
def LengthRejected (len : Nat) : Prop := len < 2 ∨ maxFrameBytes < len

instance (len : Nat) : Decidable (LengthRejected len) := inferInstanceAs (Decidable (_ ∨ _))

/-- What is left when there is no whole frame any more, the error, and what is left after it. -/
inductive Ends (rest : Bytes) : TransportError → Bytes → Prop where
  | clean (h : rest = []) : Ends rest .closed []
  | header (h : 0 < rest.length ∧ rest.length < 4) : Ends rest .closed []
  /-- The length is rejected when the four bytes of it have been read. -/
  | length {header tail : Bytes} {e : TransportError} (h : rest = header ++ tail) (hlen : header.length = 4)
      (hrejected : LengthRejected (word header)) (he : e = .malformedFrame ∨ e = .frameTooLarge (.ofNat 32 (word header))) :
      Ends rest e tail
  | body {header tail : Bytes} (h : rest = header ++ tail) (hlen : header.length = 4) (htaken : ¬ LengthRejected (word header))
      (hshort : tail.length < word header) : Ends rest .unexpectedEof []

/-- The bytes of a frame. -/
def encode (frame : Frame) : Bytes :=
  toBytes 4 (.ofNat 32 (2 + frame.payload.length)) ++ toBytes 2 frame.version ++ frame.payload

/-! ## Numbers as bytes -/

variable {bytes : Bytes}

theorem word_append (xs : Bytes) (b : UInt8) : word (xs ++ [b]) = 256 * word xs + b.toNat := by
  rw [word, List.foldl_append]
  rfl

/-- The first `k` bytes of an array are the number without its last bytes. -/
theorem word_take (n : Nat) (w : BitVec (8 * n)) :
    ∀ k ≤ n, word ((toBytes n w).take k) = w.toNat / 2 ^ (8 * (n - k)) := by
  intro k hk
  induction k with
  | zero =>
    rw [List.take_zero, Nat.sub_zero, Nat.div_eq_of_lt w.isLt]
    rfl
  | succ k ih =>
    have hbyte : (toBytes n w)[k]? = some (UInt8.ofNat (w.toNat / 2 ^ (8 * (n - (k + 1))))) := by
      have := toBytes_getElem n w (i := n - 1 - k) (by omega)
      rwa [Nat.shiftRight_eq_div_pow, show n - 1 - (n - 1 - k) = k by omega, show n - 1 - k = n - (k + 1) by omega] at this
    rw [List.take_add_one, hbyte, Option.toList_some, word_append, ih (by omega), UInt8.toNat_ofNat',
      show 8 * (n - k) = 8 * (n - (k + 1)) + 8 by omega, Nat.pow_add, ← Nat.div_div_eq_div_mul]
    exact Nat.div_add_mod _ 256

theorem word_toBytes (n : Nat) (w : BitVec (8 * n)) : word (toBytes n w) = w.toNat := by
  have h := word_take n w n (Nat.le_refl n)
  rwa [List.take_of_length_le (by rw [toBytes_length]), Nat.sub_self, Nat.mul_zero, Nat.pow_zero,
    Nat.div_one] at h

theorem word_lt (bytes : Bytes) : word bytes < 2 ^ (8 * bytes.length) := by
  induction bytes using List.reverseRecOn with
  | nil => exact Nat.one_pos
  | append_singleton bytes b ih =>
    have hb := b.toNat_lt
    rw [word_append, List.length_append, List.length_singleton, Nat.mul_add, Nat.pow_add]
    omega

theorem word_injective {xs ys : Bytes} (hlen : xs.length = ys.length) (h : word xs = word ys) :
    xs = ys := by
  induction xs using List.reverseRecOn generalizing ys with
  | nil => exact (List.length_eq_zero_iff.mp hlen.symm).symm
  | append_singleton xs x ih =>
    obtain rfl | ⟨ys, y, rfl⟩ := List.eq_nil_or_concat' ys
    · simp at hlen
    have hx := x.toNat_lt
    have hy := y.toNat_lt
    rw [word_append, word_append] at h
    rw [List.length_append, List.length_append] at hlen
    rw [ih (by simpa using hlen) (by omega), UInt8.toNat_inj.mp (by omega : x.toNat = y.toNat)]

theorem toBytes_word {n : Nat} (h : bytes.length = n) :
    toBytes n (.ofNat _ (word bytes)) = bytes := by
  subst h
  refine word_injective (toBytes_length _ _) ?_
  rw [word_toBytes, BitVec.toNat_ofNat, Nat.mod_eq_of_lt (word_lt bytes)]

theorem word_four (w : BitVec 32) : word (toBytes 4 w) = w.toNat := word_toBytes 4 w

theorem word_two (w : BitVec 16) : word (toBytes 2 w) = w.toNat := word_toBytes 2 w

/-! ## One frame -/

theorem readExact_append {r : Reader UInt8} {first tail : Bytes} {n : Nat}
    (h : r.left = first ++ tail) (hn : first.length = n) :
    ∃ calls, readExact sizes n r = (some first, ⟨tail, calls⟩) := by
  obtain ⟨calls, hread⟩ := readExact_of_le sizes
    (by rw [h, List.length_append]; omega : n ≤ r.left.length)
  rw [h, List.take_left' hn, List.drop_left' hn] at hread
  exact ⟨calls, hread⟩

/-- A frame that is written is read back. -/
theorem readFrame_encode {r : Reader UInt8} {frame : Frame} {tail : Bytes}
    (h : r.left = encode frame ++ tail)
    (hlen : ¬ LengthRejected (2 + frame.payload.length)) :
    ∃ calls, readFrame sizes r = (.ok frame, ⟨tail, calls⟩) := by
  rw [LengthRejected, not_or] at hlen
  have hmax : maxFrameBytes = 1048576 := rfl
  rw [encode, List.append_assoc, List.append_assoc] at h
  obtain ⟨calls, hheader⟩ := readExact_append sizes h (toBytes_length 4 _)
  obtain ⟨calls', hversion⟩ := readExact_append sizes (r := ⟨toBytes 2 frame.version ++ (frame.payload ++ tail), calls⟩)
    rfl (toBytes_length 2 frame.version)
  obtain ⟨calls'', hpayload⟩ :=
    readExact_append sizes (r := ⟨frame.payload ++ tail, calls'⟩) rfl rfl
  have hword : word (toBytes 4 (.ofNat 32 (2 + frame.payload.length))) =
      2 + frame.payload.length := by
    rw [word_four, BitVec.toNat_ofNat, Nat.mod_eq_of_lt (by omega)]
  refine ⟨calls'', ?_⟩
  rw [readFrame, hheader]
  dsimp only
  rw [hword, if_neg hlen.1, if_neg hlen.2, hversion]
  dsimp only
  rw [Nat.add_sub_cancel_left, hpayload]
  dsimp only
  rw [word_two, BitVec.ofNat_toNat, BitVec.setWidth_eq]

/-- What `read_frame` does with what is left: it is a frame, or the stream ends there. -/
theorem readFrame_next (r : Reader UInt8) :
    (∃ e left calls, readFrame sizes r = (.error e, ⟨left, calls⟩) ∧ Ends r.left e left) ∨
      ∃ frame tail, r.left = encode frame ++ tail ∧
        ¬ LengthRejected (2 + frame.payload.length) := by
  by_cases hfour : r.left.length < 4
  · obtain ⟨calls, hread⟩ := readExact_of_lt sizes hfour
    refine .inl ⟨.closed, [], calls, by rw [readFrame, hread], ?_⟩
    cases hleft : r.left with
    | nil => exact .clean rfl
    | cons b left => exact .header ⟨Nat.succ_pos _, by rw [← hleft]; exact hfour⟩
  have hsplit : r.left = r.left.take 4 ++ r.left.drop 4 := (List.take_append_drop 4 r.left).symm
  have hlen : (r.left.take 4).length = 4 := by rw [List.length_take]; omega
  generalize r.left.take 4 = header at hsplit hlen
  generalize r.left.drop 4 = tail at hsplit
  obtain ⟨calls, hheader⟩ := readExact_append sizes hsplit hlen
  by_cases hshort : word header < 2
  · refine .inl ⟨.malformedFrame, tail, calls, ?_, .length hsplit hlen (.inl hshort) (.inl rfl)⟩
    rw [readFrame, hheader]
    exact if_pos hshort
  by_cases hlong : word header > maxFrameBytes
  · refine .inl ⟨.frameTooLarge (.ofNat 32 (word header)), tail, calls, ?_, .length hsplit hlen (.inr hlong) (.inr rfl)⟩
    rw [readFrame, hheader]
    dsimp only
    rw [if_neg hshort, if_pos hlong]
  have htaken : ¬ LengthRejected (word header) := fun h => h.elim hshort hlong
  by_cases hbody : tail.length < word header
  · by_cases htwo : tail.length < 2
    · obtain ⟨calls', hversion⟩ := readExact_of_lt sizes (r := ⟨tail, calls⟩) htwo
      refine .inl ⟨.unexpectedEof, [], calls', ?_, .body hsplit hlen htaken hbody⟩
      rw [readFrame, hheader]
      dsimp only
      rw [if_neg hshort, if_neg hlong, hversion]
    · obtain ⟨calls', hversion⟩ := readExact_of_le sizes (r := ⟨tail, calls⟩) (Nat.le_of_not_lt htwo)
      obtain ⟨calls'', hpayload⟩ := readExact_of_lt sizes (r := ⟨tail.drop 2, calls'⟩)
        (by rw [List.length_drop]; omega : (tail.drop 2).length < word header - 2)
      refine .inl ⟨.unexpectedEof, [], calls'', ?_, .body hsplit hlen htaken hbody⟩
      rw [readFrame, hheader]
      dsimp only
      rw [if_neg hshort, if_neg hlong, hversion]
      dsimp only
      rw [hpayload]
  · refine .inr ⟨⟨.ofNat 16 (word (tail.take 2)), (tail.drop 2).take (word header - 2)⟩, tail.drop (word header), ?_, ?_⟩
    · have hpayload : 2 + ((tail.drop 2).take (word header - 2)).length = word header := by
        rw [List.length_take, List.length_drop]
        omega
      have hrest : tail = tail.take 2 ++ ((tail.drop 2).take (word header - 2) ++ tail.drop (word header)) := by
        have hdrop : (tail.drop 2).drop (word header - 2) = tail.drop (word header) := by
          rw [List.drop_drop]
          congr 1
          omega
        rw [← hdrop, List.take_append_drop, List.take_append_drop]
      rw [encode, hpayload, toBytes_word hlen, toBytes_word (by rw [List.length_take]; omega),
        List.append_assoc, List.append_assoc, ← hrest]
      exact hsplit
    · have hpayload : 2 + ((tail.drop 2).take (word header - 2)).length = word header := by
        rw [List.length_take, List.length_drop]
        omega
      show ¬ LengthRejected (2 + ((tail.drop 2).take (word header - 2)).length)
      rw [hpayload]
      exact htaken

/-! ## Whole streams -/

theorem encode_length (frame : Frame) : (encode frame).length = 6 + frame.payload.length := by
  rw [encode, List.length_append, List.length_append, toBytes_length, toBytes_length]

/-- The bytes of frames, one after another. -/
def encodeAll (frames : List Frame) : Bytes := (frames.map encode).flatten

/-- The payloads that are not too large. -/
def accepted (frames : List Frame) : List Frame :=
  frames.filter fun frame => ¬ LengthRejected (2 + frame.payload.length)

theorem writeFrame_eq (out : Bytes) (frame : Frame) :
    LengthRejected (2 + frame.payload.length) ∧
        writeFrame out frame = (.error (.frameTooLarge (.ofNat 32 (2 + frame.payload.length))), out) ∨
      ¬ LengthRejected (2 + frame.payload.length) ∧
        writeFrame out frame = (.ok (), out ++ encode frame) := by
  by_cases h : 2 + frame.payload.length > maxFrameBytes
  · exact .inl ⟨.inr h, if_pos h⟩
  · refine .inr ⟨fun hr => hr.elim (by omega) h, ?_⟩
    rw [encode, ← List.append_assoc, ← List.append_assoc]
    exact if_neg h

/-- What is written is the frames that are not too long. -/
theorem writeStream_eq (frames : List Frame) :
    writeStream frames = encodeAll (accepted frames) := by
  have hgen : ∀ out, frames.foldl (fun out frame => (writeFrame out frame).2) out =
      out ++ encodeAll (accepted frames) := by
    induction frames with
    | nil => exact fun out => (List.append_nil out).symm
    | cons frame frames ih =>
      intro out
      rw [List.foldl_cons, ih]
      obtain ⟨hr, hw⟩ | ⟨hr, hw⟩ := writeFrame_eq out frame
      · have haccepted : accepted (frame :: frames) = accepted frames :=
          List.filter_cons_of_neg (by rwa [decide_eq_true_iff, not_not])
        rw [hw, haccepted]
      · have haccepted : accepted (frame :: frames) = frame :: accepted frames :=
          List.filter_cons_of_pos (by rwa [decide_eq_true_iff])
        rw [hw, haccepted, List.append_assoc]
        rfl
  exact hgen []

/-- Reading a stream gives the frames it begins with, and the error where it is no frame any more.
-/
theorem readAll_eq {fuel : Nat} {r : Reader UInt8} (hfuel : r.left.length < fuel) :
    ∃ frames rest e left calls,
    readAll sizes fuel r = (frames, some e, ⟨left, calls⟩) ∧ r.left = encodeAll frames ++ rest ∧
      (∀ frame ∈ frames, ¬ LengthRejected (2 + frame.payload.length)) ∧ Ends rest e left := by
  induction fuel generalizing r with
  | zero => exact absurd hfuel (Nat.not_lt_zero _)
  | succ fuel ih =>
    obtain ⟨e, left, calls, hread, hends⟩ | ⟨frame, tail, hsplit, hlen⟩ := readFrame_next sizes r
    · refine ⟨[], r.left, e, left, calls, ?_, rfl, fun _ h => absurd h List.not_mem_nil, hends⟩
      rw [readAll, hread]
    · obtain ⟨calls, hread⟩ := readFrame_encode sizes hsplit hlen
      have hshorter : tail.length < fuel := by
        rw [hsplit, List.length_append, encode_length] at hfuel
        omega
      obtain ⟨frames, rest, e, left, calls', hall, htail, htaken, hends⟩ :=
        ih (r := ⟨tail, calls⟩) hshorter
      refine ⟨frame :: frames, rest, e, left, calls', ?_, ?_, List.forall_mem_cons.mpr ⟨hlen, htaken⟩, hends⟩
      · rw [readAll, hread]
        dsimp only
        rw [hall]
      · rw [hsplit]
        show encode frame ++ tail = encode frame ++ encodeAll frames ++ rest
        rw [List.append_assoc]
        exact congrArg (encode frame ++ ·) htail

/-- All frames are read back, however the reads are split. -/
theorem readAll_encodeAll {fuel : Nat} {r : Reader UInt8} {frames : List Frame}
    (hfuel : r.left.length < fuel)
    (h : r.left = encodeAll frames) (hlen : ∀ frame ∈ frames, ¬ LengthRejected (2 + frame.payload.length)) :
    ∃ calls, readAll sizes fuel r = (frames, some .closed, ⟨[], calls⟩) := by
  induction frames generalizing fuel r with
  | nil =>
    cases fuel with
    | zero => exact absurd hfuel (Nat.not_lt_zero _)
    | succ fuel =>
      have hleft : r.left.length < 4 := by
        rw [h]
        exact Nat.succ_pos 3
      obtain ⟨calls, hread⟩ := readExact_of_lt sizes hleft
      exact ⟨calls, by rw [readAll, readFrame, hread]⟩
  | cons frame frames ih =>
    cases fuel with
    | zero => exact absurd hfuel (Nat.not_lt_zero _)
    | succ fuel =>
      obtain ⟨calls, hread⟩ := readFrame_encode sizes h (hlen frame List.mem_cons_self)
      have hshorter : (encodeAll frames).length < fuel := by
        rw [h, encodeAll, List.map_cons, List.flatten_cons, List.length_append,
          encode_length] at hfuel
        rw [encodeAll]
        omega
      obtain ⟨calls', hall⟩ := ih (r := ⟨encodeAll frames, calls⟩) hshorter rfl
        fun frame hf => hlen frame (List.mem_cons_of_mem _ hf)
      refine ⟨calls', ?_⟩
      rw [readAll, hread]
      dsimp only
      rw [show (List.map encode frames).flatten = encodeAll frames from rfl, hall]

theorem readStream_writeStream (frames : List Frame) :
    ∃ calls, readStream sizes (writeStream frames) =
      (accepted frames, some .closed, ⟨[], calls⟩) := by
  rw [writeStream_eq]
  refine readAll_encodeAll sizes (Nat.lt_succ_self _) rfl fun frame hf => ?_
  exact of_decide_eq_true (List.mem_filter.mp hf).2

/-- A length is rejected when its four bytes have been read, and only then. -/
theorem readFrame_length (len : BitVec 32) (tail : Bytes) (calls : Nat) : LengthRejected len.toNat ↔
    ∃ e calls', readFrame sizes ⟨toBytes 4 len ++ tail, calls⟩ = (.error e, ⟨tail, calls'⟩) ∧
      e ≠ .closed ∧ e ≠ .unexpectedEof := by
  obtain ⟨calls', hheader⟩ :=
    readExact_append sizes (r := ⟨toBytes 4 len ++ tail, calls⟩) rfl (toBytes_length 4 len)
  constructor
  · intro hr
    by_cases hshort : len.toNat < 2
    · refine ⟨.malformedFrame, calls', ?_, TransportError.noConfusion, TransportError.noConfusion⟩
      rw [readFrame, hheader]
      dsimp only
      rw [word_four, if_pos hshort]
    · refine ⟨.frameTooLarge (.ofNat 32 len.toNat), calls', ?_, TransportError.noConfusion, TransportError.noConfusion⟩
      rw [readFrame, hheader]
      dsimp only
      rw [word_four, if_neg hshort, if_pos (hr.resolve_left hshort)]
  · rintro ⟨e, calls'', hread, hclosed, heof⟩
    by_contra hr
    rw [LengthRejected, not_or] at hr
    rw [readFrame, hheader] at hread
    dsimp only at hread
    rw [word_four, if_neg hr.1, if_neg hr.2] at hread
    split at hread
    · exact heof (Except.error.inj (Prod.mk.inj hread).1).symm
    · split at hread
      · exact heof (Except.error.inj (Prod.mk.inj hread).1).symm
      · cases (Prod.mk.inj hread).1

/-- What is written is read, a payload is not written if and only if its length is not read, and any
stream is read up to where it is no frame any more. -/
theorem frame_stream (sizes : Nat → Nat) :
    (∀ frames, ∃ calls, readStream sizes (writeStream frames) = (accepted frames, some .closed, ⟨[], calls⟩)) ∧
    (∀ out frame, LengthRejected (2 + frame.payload.length) ∧ (∃ e, writeFrame out frame = (.error e, out)) ∨
      ¬ LengthRejected (2 + frame.payload.length) ∧
        writeFrame out frame = (.ok (), out ++ encode frame)) ∧
    (∀ (len : BitVec 32) tail calls, LengthRejected len.toNat ↔
      ∃ e calls', readFrame sizes ⟨toBytes 4 len ++ tail, calls⟩ = (.error e, ⟨tail, calls'⟩) ∧
        e ≠ .closed ∧ e ≠ .unexpectedEof) ∧
    ∀ bytes, ∃ frames rest e left calls, readStream sizes bytes = (frames, some e, ⟨left, calls⟩) ∧
      bytes = encodeAll frames ++ rest ∧ accepted frames = frames ∧ Ends rest e left := by
  refine ⟨readStream_writeStream sizes, fun out frame => ?_, readFrame_length sizes, fun bytes => ?_⟩
  · obtain ⟨hr, hw⟩ | ⟨hr, hw⟩ := writeFrame_eq out frame
    · exact .inl ⟨hr, _, hw⟩
    · exact .inr ⟨hr, hw⟩
  · obtain ⟨frames, rest, e, left, calls, hread, hsplit, hlen, hends⟩ := readAll_eq sizes (r := ⟨bytes, 0⟩)
      (Nat.lt_succ_self bytes.length)
    exact ⟨frames, rest, e, left, calls, hread, hsplit, List.filter_eq_self.mpr fun f hf => decide_eq_true (hlen f hf), hends⟩

/-- A stream that ends in the body of a frame: it is read to its end, past the header. -/
theorem truncated_consumed :
    ¬ ∀ (sizes : Nat → Nat) (bytes : Bytes), (∀ frames, bytes ≠ writeStream frames) →
    ∃ frames rest e calls, readStream sizes bytes = (frames, some e, ⟨rest.drop 4, calls⟩) ∧
      e ≠ .closed ∧
      bytes = encodeAll frames ++ rest := by
  intro h
  have hread : readStream (fun _ => 1) [0, 0, 0, 3, 1] = ([], some .unexpectedEof, ⟨[], 6⟩) := by
    rfl
  have hnot : ∀ frames, [0, 0, 0, 3, 1] ≠ writeStream frames := by
    intro frames heq
    obtain ⟨calls, hclosed⟩ := readStream_writeStream (fun _ => 1) frames
    rw [← heq, hread] at hclosed
    cases (Prod.mk.inj (Prod.mk.inj hclosed).2).1
  obtain ⟨frames, rest, e, calls, hother, -, hsplit⟩ := h (fun _ => 1) [0, 0, 0, 3, 1] hnot
  rw [hread] at hother
  obtain ⟨rfl, hother⟩ := Prod.mk.inj hother
  obtain rfl : [0, 0, 0, 3, 1] = rest := hsplit
  cases (Prod.mk.inj hother).2

end Portty.Framing
