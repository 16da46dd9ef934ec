import Portty.Host.FileTransfer
import Portty.Lib.Reads

/-!
# The sender of a download (`file_transfer.rs`)

`spawn_download` reads a file once, from the start, in chunks of `FILE_CHUNK_BYTES`; it hashes all
of them and sends those from the resume point on, then the size and the checksum. The phone may go
away at any time: it then has a prefix of the frames.

* **The operating system** decides how many bytes a read returns, and which call fails (`Os`). While
  a transfer lasts the file has one content; `changed` is what the second look at its metadata says.
* `spawnDownload_cases`: what is sent is always a prefix of the due chunks, and a `FileDone` comes
  after all of them.
* `download_resume`: a retry goes on where the chunks of the first attempt end, unless they are all
  there and the last one is not full: then it is refused.
-/

namespace Portty.FileTransfer.Download

open Reads

/-- A file that can be: offsets are signed. -/
structure Content where
  bytes : Bytes
  le_max : bytes.length ≤ maxFileLen

/-- What the operating system decides during one transfer. -/
structure Os where
  openError : Option String := none
  inspectError : Option String := none
  /-- The most that a read returns, by the number of the call. -/
  sizes : Nat → Nat
  readError : Nat → Option String := fun _ => none
  changed : Bool := false

/-- What a download sends. -/
inductive Frame where
  | fileChunk (id : TransferId) (seq : Nat) (bytes : Bytes)
  | fileDone (id : TransferId) (size : Nat) (checksum : Digest)
  | fileErr (id : TransferId) (reason : String)
  deriving DecidableEq

/-- The inner loop: fill the buffer. Each call returns at least one byte, so `want` calls are
enough. -/
def fillBuf (os : Os) : Nat → Nat → Reader UInt8 → Except String (Bytes × Reader UInt8)
  | 0, _, file => .ok ([], file)
  | _, 0, file => .ok ([], file)
  | fuel + 1, want + 1, file =>
    match os.readError file.calls with
    | some e => .error ("cannot read download: " ++ e)
    | none =>
      match file.read os.sizes (want + 1) with
      | ([], file) => .ok ([], file)
      | (b :: got, file) =>
        (fillBuf os fuel (want - got.length) file).map fun p => (b :: got ++ p.1, p.2)

variable (id : TransferId) (startSeq : Nat)

/-- The outer loop: the frames, and all bytes that were hashed. -/
def sendChunks (os : Os) : Nat → Nat → Bytes → Reader UInt8 → List Frame × Except String Bytes
  | 0, _, hashed, _ => ([], .ok hashed)
  | fuel + 1, seq, hashed, file =>
    match fillBuf os fileChunkBytes fileChunkBytes file with
    | .error e => ([], .error e)
    | .ok (buf, file) =>
      if buf = [] then ([], .ok hashed)
      else
        let sent := if startSeq ≤ seq then [Frame.fileChunk id seq buf] else []
        -- a short fill means we hit EOF
        if buf.length < fileChunkBytes then (sent, .ok (hashed ++ buf))
        else
          let (more, result) := sendChunks os fuel (seq + 1) (hashed ++ buf) file
          (sent ++ more, result)

/-- The frames of a download. -/
def spawnDownload (blake3 : Bytes → Digest) (os : Os) (content : Content) : List Frame :=
  match os.openError, os.inspectError with
  | some e, _ => [.fileErr id ("cannot open download: " ++ e)]
  | none, some e => [.fileErr id ("cannot inspect download: " ++ e)]
  | none, none =>
    let originalLen := content.bytes.length
    if min (startSeq * fileChunkBytes) u64Max > originalLen then
      [.fileErr id "resume point is beyond the end of the file"]
    else
      match sendChunks id startSeq os (originalLen + 1) 0 [] ⟨content.bytes, 0⟩ with
      | (sent, .error e) => sent ++ [.fileErr id e]
      | (sent, .ok hashed) =>
        if os.changed then
          sent ++ [.fileErr id "file changed during download; start the transfer again"]
        else sent ++ [.fileDone id originalLen (blake3 hashed)]

/-! ## What is due -/

/-- The chunks of a file. -/
def chunkCount (content : Content) : Nat :=
  (content.bytes.length + (fileChunkBytes - 1)) / fileChunkBytes

/-- The bytes `[seq * CHUNK, min ((seq + 1) * CHUNK, len))`. -/
def chunk (content : Content) (seq : Nat) : Bytes :=
  (content.bytes.drop (seq * fileChunkBytes)).take fileChunkBytes

/-- The frame of a chunk. -/
def chunkFrame (content : Content) (seq : Nat) : Frame := .fileChunk id seq (chunk content seq)

/-- The chunks from the resume point on, those before `seq` left out. -/
def dueFrom (content : Content) (seq : Nat) : List Frame :=
  ((List.range' seq (chunkCount content - seq)).filter (startSeq ≤ ·)).map (chunkFrame id content)

/-- The chunks from the first that is asked for. -/
def dueChunks (content : Content) : List Frame :=
  ((List.range (chunkCount content)).filter (startSeq ≤ ·)).map (chunkFrame id content)

/-- The last frame. -/
def fileDone (blake3 : Bytes → Digest) (content : Content) : Frame :=
  .fileDone id content.bytes.length (blake3 content.bytes)

/-- The bytes that some frames carry. -/
def payload (frames : List Frame) : Bytes :=
  frames.flatMap fun
    | .fileChunk _ _ bytes => bytes
    | _ => []

/-! ## The buffer -/

variable {id startSeq} {os : Os} {content : Content} {file : Reader UInt8} {fuel want seq n : Nat}
  {e : String}

/-- A full buffer, a short one at the end of the file, or an error of the system. -/
theorem fillBuf_cases (os : Os) (h : want ≤ fuel) (file : Reader UInt8) :
    (∃ calls, fillBuf os fuel want file = .ok (file.left.take want, ⟨file.left.drop want, calls⟩)) ∨
    ∃ e, fillBuf os fuel want file = .error e ∧ ∃ n, os.readError n ≠ none := by
  suffices hfill : fillBuf os fuel want file = .ok (fill os.sizes fuel want file) ∨
      ∃ e, fillBuf os fuel want file = .error e ∧ ∃ n, os.readError n ≠ none by
    obtain ⟨calls, heq⟩ := fill_eq os.sizes h file
    rw [heq] at hfill
    exact hfill.imp_left fun hok => ⟨calls, hok⟩
  induction fuel generalizing want file with
  | zero => exact .inl rfl
  | succ fuel ih =>
    cases want with
    | zero => exact .inl rfl
    | succ want =>
      rw [fillBuf, fill]
      cases he : os.readError file.calls with
      | some e => exact .inr ⟨_, rfl, _, by rw [he]; exact Option.some_ne_none e⟩
      | none =>
        dsimp only
        generalize file.read os.sizes (want + 1) = p
        obtain ⟨_ | ⟨b, got⟩, file'⟩ := p
        · exact .inl rfl
        · dsimp only
          obtain hok | ⟨e, herr, hn⟩ := ih (by omega : want - got.length ≤ fuel) file'
          · rw [hok]
            exact .inl rfl
          · rw [herr]
            exact .inr ⟨e, rfl, hn⟩

/-! ## The chunks -/

theorem lt_chunkCount : seq < chunkCount content ↔ seq * fileChunkBytes < content.bytes.length := by
  unfold chunkCount fileChunkBytes
  omega

theorem chunk_eq_nil : chunk content seq = [] ↔ chunkCount content ≤ seq := by
  have hlt : seq < chunkCount content ↔ seq * fileChunkBytes < content.bytes.length := lt_chunkCount
  rw [chunk, List.take_eq_nil_iff, List.drop_eq_nil_iff, or_iff_right (by decide)]
  omega

theorem length_chunk : (chunk content seq).length = min fileChunkBytes (content.bytes.length - seq * fileChunkBytes) := by
  rw [chunk, List.length_take, List.length_drop]

theorem take_chunk (content : Content) (seq : Nat) :
    content.bytes.take (seq * fileChunkBytes) ++ chunk content seq =
      content.bytes.take ((seq + 1) * fileChunkBytes) := by
  rw [chunk, Nat.succ_mul, List.take_add]

theorem dueFrom_succ (h : seq < chunkCount content) : dueFrom id startSeq content seq =
    (if startSeq ≤ seq then [Frame.fileChunk id seq (chunk content seq)] else []) ++
      dueFrom id startSeq content (seq + 1) := by
  have hcount : chunkCount content - seq = chunkCount content - (seq + 1) + 1 := by omega
  rw [dueFrom, hcount, List.range'_succ, List.filter_cons]
  by_cases hs : startSeq ≤ seq
  · rw [if_pos (decide_eq_true hs), if_pos hs]
    rfl
  · rw [if_neg (by rw [decide_eq_true_iff]; exact hs), if_neg hs]
    rfl

theorem dueFrom_nil (h : chunkCount content ≤ seq) : dueFrom id startSeq content seq = [] := by
  rw [dueFrom, Nat.sub_eq_zero_of_le h]
  rfl

theorem dueFrom_zero : dueFrom id startSeq content 0 = dueChunks id startSeq content := by
  rw [dueFrom, dueChunks, List.range_eq_range', Nat.sub_zero]

/-- The loop from one chunk on: all that is due, with the hash of the file, or a prefix of it and an
error. -/
theorem sendChunks_cases (hfuel : content.bytes.length < seq * fileChunkBytes + fuel)
    (hfile : file.left = content.bytes.drop (seq * fileChunkBytes)) :
    sendChunks id startSeq os fuel seq (content.bytes.take (seq * fileChunkBytes)) file =
      (dueFrom id startSeq content seq, .ok content.bytes) ∨
    ∃ sent e, sendChunks id startSeq os fuel seq (content.bytes.take (seq * fileChunkBytes)) file =
      (sent, .error e) ∧
      sent <+: dueFrom id startSeq content seq ∧ ∃ n, os.readError n ≠ none := by
  induction fuel generalizing seq file with
  | zero =>
    refine .inl ?_
    have hend : chunkCount content ≤ seq := by rw [← Nat.not_lt, lt_chunkCount]; omega
    rw [sendChunks, dueFrom_nil hend, List.take_of_length_le (by omega)]
  | succ fuel ih =>
    rw [sendChunks]
    obtain ⟨calls, hfill⟩ | ⟨e, hfill, hn⟩ := fillBuf_cases os (Nat.le_refl fileChunkBytes) file
    · rw [hfill, hfile, ← chunk]
      dsimp only
      by_cases hend : chunkCount content ≤ seq
      · rw [if_pos (chunk_eq_nil.mpr hend), dueFrom_nil hend, List.take_of_length_le]
        · exact .inl rfl
        · rw [← Nat.not_lt, lt_chunkCount] at hend
          exact Nat.not_lt.mp hend
      · rw [if_neg (mt chunk_eq_nil.mp hend), take_chunk]
        have hlt : seq < chunkCount content := Nat.not_le.mp hend
        rw [dueFrom_succ hlt]
        by_cases hshort : (chunk content seq).length < fileChunkBytes
        · rw [length_chunk] at hshort
          have hlast : content.bytes.length ≤ (seq + 1) * fileChunkBytes := by
            rw [Nat.succ_mul]
            omega
          have hnone : chunkCount content ≤ seq + 1 := by
            rw [← Nat.not_lt, lt_chunkCount]
            omega
          rw [if_pos (by rwa [length_chunk]), dueFrom_nil hnone, List.append_nil,
            List.take_of_length_le hlast]
          exact .inl rfl
        · rw [if_neg hshort]
          have hbytes : 0 < fileChunkBytes := by decide
          have hdrop : (content.bytes.drop (seq * fileChunkBytes)).drop fileChunkBytes =
              content.bytes.drop ((seq + 1) * fileChunkBytes) := by
            rw [List.drop_drop, Nat.succ_mul]
          rw [hdrop]
          obtain hall | ⟨sent, e, herr, hsent, hn⟩ :=
            @ih ⟨content.bytes.drop ((seq + 1) * fileChunkBytes), calls⟩ (seq + 1) (by rw [Nat.succ_mul]; omega) rfl
          · rw [hall]
            exact .inl rfl
          · rw [herr]
            exact .inr ⟨_, e, rfl, List.prefix_append_right_inj _ |>.mpr hsent, hn⟩
    · rw [hfill]
      exact .inr ⟨[], e, rfl, List.nil_prefix, hn⟩

/-! ## The frames -/

/-- Nothing fails while the file is read, however the reads are split. -/
def Os.quiet (sizes : Nat → Nat) : Os := { sizes }

variable {blake3 : Bytes → Digest} {sizes sizes' : Nat → Nat}

/-- The first chunk of the file, as the loop begins. -/
theorem sendChunks_start (os : Os) (content : Content) (id : TransferId) (startSeq : Nat) :
    sendChunks id startSeq os (content.bytes.length + 1) 0 [] ⟨content.bytes, 0⟩ =
      (dueChunks id startSeq content, .ok content.bytes) ∨
    ∃ sent e, sendChunks id startSeq os (content.bytes.length + 1) 0 [] ⟨content.bytes, 0⟩ =
      (sent, .error e) ∧
      sent <+: dueChunks id startSeq content ∧ ∃ n, os.readError n ≠ none := by
  have hstart : content.bytes.take (0 * fileChunkBytes) = [] := by rw [Nat.zero_mul, List.take_zero]
  rw [← dueFrom_zero, ← hstart]
  exact sendChunks_cases (by omega) (by rw [Nat.zero_mul, List.drop_zero])

/-- Whatever the system does, the chunks that were sent are the first of those due; `FileDone` comes
after all. -/
theorem spawnDownload_cases (os : Os) (content : Content) :
    spawnDownload id startSeq blake3 os content =
      dueChunks id startSeq content ++ [fileDone id blake3 content] ∨
    ∃ sent reason, spawnDownload id startSeq blake3 os content = sent ++ [.fileErr id reason] ∧
      sent <+: dueChunks id startSeq content := by
  rw [spawnDownload]
  split
  · exact .inr ⟨[], _, rfl, List.nil_prefix⟩
  · exact .inr ⟨[], _, rfl, List.nil_prefix⟩
  · dsimp only
    split
    · exact .inr ⟨[], _, rfl, List.nil_prefix⟩
    · obtain hall | ⟨sent, e, herr, hsent, -⟩ := sendChunks_start os content id startSeq
      · rw [hall]
        dsimp only
        split
        · exact .inr ⟨_, _, rfl, List.prefix_refl _⟩
        · exact .inl rfl
      · rw [herr]
        exact .inr ⟨sent, e, rfl, hsent⟩

theorem resume_saturating (content : Content) :
    min (startSeq * fileChunkBytes) u64Max > content.bytes.length ↔
      ¬ startSeq * fileChunkBytes ≤ content.bytes.length := by
  have hmax : content.bytes.length < u64Max := Nat.lt_of_le_of_lt content.le_max (by decide)
  omega

theorem spawnDownload_quiet (sizes : Nat → Nat) (content : Content) :
    spawnDownload id startSeq blake3 (.quiet sizes) content =
      if startSeq * fileChunkBytes ≤ content.bytes.length then
        dueChunks id startSeq content ++ [fileDone id blake3 content]
      else [.fileErr id "resume point is beyond the end of the file"] := by
  rw [spawnDownload]
  dsimp only [Os.quiet]
  by_cases h : startSeq * fileChunkBytes ≤ content.bytes.length
  · rw [if_neg (by rw [resume_saturating, not_not]; exact h), if_pos h]
    obtain hall | ⟨_, _, _, _, n, hn⟩ := sendChunks_start (.quiet sizes) content id startSeq
    · rw [Os.quiet] at hall
      rw [hall]
      rfl
    · exact absurd rfl hn
  · rw [if_pos (resume_saturating content |>.mpr h), if_neg h]

/-! ## A retry -/

theorem payload_append (x y : List Frame) : payload (x ++ y) = payload x ++ payload y :=
  List.flatMap_append

theorem payload_chunks (content : Content) (seqs : List Nat) :
    payload (seqs.map (chunkFrame id content)) = seqs.flatMap (chunk content) := by
  rw [payload, List.flatMap_map]
  rfl

theorem flatMap_chunk (content : Content) (n : Nat) :
    (List.range n).flatMap (chunk content) = content.bytes.take (n * fileChunkBytes) := by
  induction n with
  | zero => rw [Nat.zero_mul, List.take_zero, List.range_zero, List.flatMap_nil]
  | succ n ih => rw [List.range_succ, List.flatMap_append, ih, List.flatMap_singleton, take_chunk]

theorem filter_range (s n : Nat) : (List.range n).filter (s ≤ ·) = (List.range n).drop s := by
  induction n with
  | zero => rw [List.range_zero, List.drop_nil, List.filter_nil]
  | succ n ih =>
    rw [List.range_succ, List.filter_append, ih, List.filter_singleton, List.drop_append,
      List.length_range]
    by_cases h : s ≤ n
    · rw [Nat.sub_eq_zero_of_le h, decide_eq_true h, cond_true, List.drop_zero]
    · have hnil : [n].drop (s - n) = [] := List.drop_eq_nil_of_le (by rw [List.length_singleton]; omega)
      rw [decide_eq_false h, cond_false, hnil]

/-- A download that goes on at `startSeq`, after the chunks before it have arrived. -/
structure Resumes (blake3 : Bytes → Digest) (id : TransferId) (content : Content) (startSeq : Nat) : Prop where
  /-- The chunks from the resume point on, in order, then the size and the checksum of the whole
  file. -/
  frames : ∀ sizes, spawnDownload id startSeq blake3 (.quiet sizes) content =
    dueChunks id startSeq content ++ [fileDone id blake3 content]
  /-- What had arrived and what the retry brings is the file, and passes its check. -/
  whole : ∀ sizes sizes',
    let got := payload ((spawnDownload id 0 blake3 (.quiet sizes) content).take startSeq) ++
      payload (spawnDownload id startSeq blake3 (.quiet sizes') content)
    got = content.bytes ∧ (spawnDownload id startSeq blake3 (.quiet sizes') content).getLast? =
      some (.fileDone id got.length (blake3 got))

theorem length_dueChunks (content : Content) :
    (dueChunks id 0 content).length = chunkCount content := by
  rw [dueChunks, filter_range, List.drop_zero, List.length_map, List.length_range]

/-- The chunks before the resume point and those from it on. -/
theorem payload_resume (h : startSeq ≤ chunkCount content) :
    payload ((dueChunks id 0 content ++ [fileDone id blake3 content]).take startSeq) ++
      payload (dueChunks id startSeq content ++ [fileDone id blake3 content]) = content.bytes := by
  have hdone : payload [fileDone id blake3 content] = [] := rfl
  have hcount : content.bytes.length ≤ chunkCount content * fileChunkBytes := by
    rw [← Nat.not_lt, ← lt_chunkCount]
    exact Nat.lt_irrefl _
  rw [List.take_append_of_le_length (by rwa [length_dueChunks]), payload_append, hdone,
    List.append_nil, dueChunks, dueChunks, filter_range, filter_range, List.drop_zero,
    ← List.map_take, payload_chunks, payload_chunks, ← List.flatMap_append, List.take_append_drop,
    flatMap_chunk, List.take_of_length_le hcount]

/-- A retry goes on where the chunks that arrived end, as long as that is not past the end of the
file. -/
theorem download_resume (h : startSeq ≤ chunkCount content) :
    Resumes blake3 id content startSeq ↔ startSeq * fileChunkBytes ≤ content.bytes.length := by
  constructor
  · intro hr
    by_contra hpast
    have hframes := hr.frames fun _ => 1
    rw [spawnDownload_quiet, if_neg hpast] at hframes
    have hlast := congrArg List.getLast? hframes
    rw [List.getLast?_concat] at hlast
    cases hlast
  · intro hle
    refine ⟨fun sizes => by rw [spawnDownload_quiet, if_pos hle], fun sizes sizes' => ?_⟩
    have hgot : payload ((spawnDownload id 0 blake3 (.quiet sizes) content).take startSeq) ++
        payload (spawnDownload id startSeq blake3 (.quiet sizes') content) = content.bytes := by
      rw [spawnDownload_quiet, spawnDownload_quiet, if_pos hle, if_pos (by omega), payload_resume h]
    dsimp only
    rw [hgot, spawnDownload_quiet, if_pos hle, List.getLast?_concat]
    exact ⟨rfl, rfl⟩

/-- A file of two full chunks and a third one of 7232 bytes. -/
def threeChunks : Content :=
  ⟨(List.range 40000).map UInt8.ofNat, by rw [List.length_map, List.length_range]; decide⟩

theorem length_threeChunks : threeChunks.bytes.length = 40000 := by
  rw [threeChunks, List.length_map, List.length_range]

/-- The link was lost after two chunks. -/
theorem download_resume_third : Resumes (fun bytes => .ofNat 256 bytes.length) ⟨1⟩ threeChunks 2 :=
  (download_resume (by rw [chunkCount, length_threeChunks]; decide)).mpr
    (by rw [length_threeChunks]; decide)

/-- All chunks have arrived, the last one not full: the retry that is left for `FileDone` is
refused. -/
theorem download_resume_end :
    ¬ ∀ blake3 id content startSeq, startSeq ≤ chunkCount content →
      Resumes blake3 id content startSeq := by
  intro h
  have hr := h (fun _ => 0) ⟨1⟩ ⟨[7], by decide⟩ 1 (by decide)
  exact absurd ((download_resume (by decide)).mp hr) (by decide)

end Portty.FileTransfer.Download
