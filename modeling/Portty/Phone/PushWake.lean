import Mathlib.Algebra.GroupWithZero.Nat
import Portty.Lib.Mru
import Portty.PushRelay.Relay
import Portty.Transport.Envelope
import Portty.Transport.Ticket

/-!
# The wakes of a phone (`push_wake.rs`, `PorttyWakeStore.kt`, `push_glue.mm`)

A wake names a host in a blob that the phone sealed itself. The platform puts each wake that arrives
at the front of a file, which anybody can make it do, and the app takes the file and goes to the
host of the first one that opens.

* `Inv.step`: the file against all wakes that were stored.
* `sealed_wake_found`: a sealed wake is found, unless four other wakes came after it.

The file is ASCII; `String::len` and `String.length` are its number of characters. Wakes are trimmed
before, and an access of the file is one step: two of them at once, reads that fail and other
directories are not here.
-/

namespace Portty.Phone.PushWake

open PushRelay (hexDigit hexDecode hexEncode)

/-- The file is a list of characters. -/
abbrev Text := List Char

/-- The wakes that the file has at most. -/
def maxWakeCandidates : Nat := 4

/-- The longest wake, in digits. -/
def maxWakeHex : Nat := 1024

/-- A longer file is not read. -/
def maxWakeFileBytes : Nat := 8 * 1024

/-- The label under which wakes are sealed. -/
def wakeAad : Bytes := label "portty-wake-blob-v1"

/-! ## The platform -/

/-- What is stored at all: hexadecimal, of even length, and not too long. -/
def looksLikeWakeBlob (wake : Text) : Bool :=
  !wake.isEmpty && wake.length ≤ maxWakeHex && wake.length % 2 = 0 && wake.all fun c => (hexDigit c).isSome

/-- One wake in a line. -/
def joined (wakes : List Text) : Text := ['\n'].intercalate wakes

/-- The wakes of the file; a file that is too long has none. -/
def existing : Option Text → List Text
  | none => []
  | some text =>
    if text.length ≤ maxWakeHex * maxWakeCandidates then (text.splitOn '\n').filter looksLikeWakeBlob else []

/-- A wake goes to the front, and the oldest ones are dropped. -/
def prepend (file : Option Text) (wake : Text) : Text :=
  joined ((wake :: existing file).eraseDups.take maxWakeCandidates)

/-! ## The app -/

variable (A : Aead) (key : BitVec 256)

/-- The phone seals its host for the time when it is woken. -/
def sealWakeBlob (nonce : BitVec 192) (host : DeviceId) : Option Bytes :=
  (A.encrypt key nonce wakeAad (toBytes 16 host.bytes)).map (toBytes 24 nonce ++ ·)

/-- The host of a blob that this phone has sealed. -/
def openWakeBlob (blob : Bytes) : Option DeviceId :=
  if blob.length < 24 then none
  else
    match A.decrypt key (Ticket.ofBytes 24 (blob.take 24)) wakeAad (blob.drop 24) with
    | none => none
    | some plain => if plain.length = 16 then some ⟨Ticket.ofBytes 16 plain⟩ else none

/-- The bytes of a line. -/
def decodeHex (text : Text) : Option Bytes :=
  if text.isEmpty || text.length % 2 ≠ 0 || !text.all fun c => (hexDigit c).isSome then none else hexDecode text

/-- The first lines of the file that are hexadecimal. -/
def parseWakeCandidates (text : Text) : List Bytes :=
  ((text.splitOn '\n').take maxWakeCandidates).filterMap decodeHex

/-- The blobs of the file that was taken. -/
def consumeWakeBlobs : Option Text → List Bytes
  | none => []
  | some text => if maxWakeFileBytes < text.length then [] else parseWakeCandidates text

/-- The host of the first blob that opens. -/
def consumePushWake (file : Option Text) : Option DeviceId :=
  (consumeWakeBlobs file).findSome? (openWakeBlob A key)

/-- The file, and the wakes it should have. -/
structure World where
  file : Option Text := none
  /-- The wakes since the file was removed, the last first, each once. -/
  stored : List Text := []

/-- The platform stores a wake, or the app looks. -/
inductive Event where
  /-- A wake arrives, and the file is `written`. -/
  | store (wake : Text) (written : Bool)
  /-- The app takes the file, which is `removed`. -/
  | consume (removed : Bool)

/-- One event. -/
def World.step (w : World) : Event → World
  | .store wake written =>
    if looksLikeWakeBlob wake && written then { file := some (prepend w.file wake), stored := Mru.put wake w.stored } else w
  | .consume removed => if removed then {} else w

/-! ## The file -/

variable {A key} {w : World} {file : Option Text} {wakes : List Text} {wake text : Text} {n : Nat}

theorem newline_notMem (h : looksLikeWakeBlob wake = true) : '\n' ∉ wake := by
  intro hmem
  have hall := List.all_eq_true.mp (Bool.and_eq_true _ _ ▸ h).2 _ hmem
  revert hall
  decide

theorem length_le_of_looks (h : looksLikeWakeBlob wake = true) : wake.length ≤ maxWakeHex := by
  simp only [looksLikeWakeBlob, Bool.and_eq_true, decide_eq_true_eq] at h
  exact h.1.1.2

theorem decodeHex_eq (h : looksLikeWakeBlob wake = true) : decodeHex wake = hexDecode wake := by
  simp only [looksLikeWakeBlob, Bool.and_eq_true, decide_eq_true_eq, Bool.not_eq_true'] at h
  obtain ⟨⟨⟨hne, -⟩, heven⟩, hall⟩ := h
  rw [decodeHex, hne, hall, heven]
  rfl

theorem length_joined (h : wakes ≠ []) :
    (joined wakes).length + 1 = (wakes.map (·.length + 1)).sum := by
  induction wakes with
  | nil => exact absurd rfl h
  | cons a wakes ih =>
    cases wakes with
    | nil => simp [joined]
    | cons b wakes =>
      have hrest := ih (List.cons_ne_nil _ _)
      rw [joined] at hrest ⊢
      rw [List.intercalate_cons_cons, List.map_cons, List.sum_cons, ← hrest]
      simp only [List.length_append, List.length_singleton]
      omega

theorem sum_length_le (h : ∀ wake ∈ wakes, looksLikeWakeBlob wake = true) :
    (wakes.map (·.length + 1)).sum ≤ wakes.length * (maxWakeHex + 1) := by
  induction wakes with
  | nil => exact Nat.zero_le _
  | cons a wakes ih =>
    obtain ⟨ha, hwakes⟩ := List.forall_mem_cons.mp h
    have hlen := length_le_of_looks ha
    have hrest := ih hwakes
    rw [List.map_cons, List.sum_cons, List.length_cons, Nat.add_mul, Nat.one_mul]
    omega

/-- With a short wake among four, the file is not too long for the platform. -/
theorem length_joined_le (hlooks : ∀ wake ∈ wakes, looksLikeWakeBlob wake = true)
    (hlen : wakes.length ≤ maxWakeCandidates)
    (hmem : wake ∈ wakes) (hshort : wake.length + 3 ≤ maxWakeHex) :
    (joined wakes).length ≤ maxWakeHex * maxWakeCandidates := by
  have hjoined := length_joined (List.ne_nil_of_mem hmem)
  have hperm := (List.perm_cons_erase hmem).map (·.length + 1)
  have hrest : ((wakes.erase wake).map (·.length + 1)).sum ≤
      (wakes.erase wake).length * (maxWakeHex + 1) :=
    sum_length_le fun wake' hwake => hlooks wake' (List.mem_of_mem_erase hwake)
  rw [hperm.sum_eq, List.map_cons, List.sum_cons] at hjoined
  rw [List.length_erase_of_mem hmem] at hrest
  rw [maxWakeHex] at hshort hrest ⊢
  rw [maxWakeCandidates] at hlen ⊢
  have hmul : (wakes.length - 1) * (1024 + 1) ≤ 3 * (1024 + 1) := Nat.mul_le_mul_right _ (by omega)
  omega

/-- These wakes are in the file, in this order. -/
inductive Shows : Option Text → List Text → Prop where
  | absent : Shows none []
  | lines {wakes : List Text} (h : wakes ≠ []) : Shows (some (joined wakes)) wakes

theorem splitOn_joined (h : wakes ≠ []) (hlooks : ∀ wake ∈ wakes, looksLikeWakeBlob wake = true) :
    (joined wakes).splitOn '\n' = wakes :=
  List.splitOn_intercalate _ (fun wake hwake => newline_notMem (hlooks wake hwake)) h

/-- The wakes are read as they were written, or the file is taken to be somebody else's. -/
theorem Shows.existing (h : Shows file wakes)
    (hlooks : ∀ wake ∈ wakes, looksLikeWakeBlob wake = true) :
    existing file = wakes ∨ existing file = [] ∧
      maxWakeHex * maxWakeCandidates < (joined wakes).length := by
  cases h with
  | absent => exact .inl rfl
  | lines h =>
    rw [PushWake.existing, splitOn_joined h hlooks, List.filter_eq_self.mpr hlooks]
    split
    · exact .inl rfl
    next hle => exact .inr ⟨rfl, Nat.lt_of_not_le hle⟩

theorem shows_prepend (h : (PushWake.existing file).Nodup) (wake : Text) :
    Shows (some (prepend file wake)) ((Mru.put wake (PushWake.existing file)).take maxWakeCandidates) := by
  rw [prepend, Mru.eraseDups_cons h]
  exact .lines (List.cons_ne_nil _ _)

/-- What the file has, against all that was stored. -/
structure Inv (w : World) : Prop where
  nodup : w.stored.Nodup
  looks : ∀ wake ∈ w.stored, looksLikeWakeBlob wake = true
  /-- The file has only wakes that were stored, and all short ones of the last four. -/
  file : ∃ wakes, Shows w.file wakes ∧ wakes.length ≤ maxWakeCandidates ∧ wakes.Sublist w.stored ∧
    ∀ wake ∈ w.stored.take maxWakeCandidates, wake.length + 3 ≤ maxWakeHex → wake ∈ wakes

theorem inv_start : Inv {} where
  nodup := .nil
  looks _ h := by cases h
  file := ⟨[], .absent, Nat.zero_le _, .slnil, fun _ h => by cases h⟩

theorem Inv.step (h : Inv w) (e : Event) : Inv (w.step e) := by
  cases e with
  | consume removed =>
    rw [World.step]
    split
    · exact inv_start
    · exact h
  | store wake written =>
    rw [World.step]
    split
    · next hstore =>
      have hwake := (Bool.and_eq_true _ _ ▸ hstore).1
      obtain ⟨wakes, hshows, hlen, hsub, hkept⟩ := h.file
      have hlooks : ∀ wake ∈ wakes, looksLikeWakeBlob wake = true :=
        fun wake hmem => h.looks wake (hsub.subset hmem)
      have hexisting : (existing w.file).Sublist w.stored := by
        rcases hshows.existing hlooks with he | ⟨he, -⟩ <;> rw [he]
        · exact hsub
        · exact List.nil_sublist _
      have hnodup := hexisting.nodup h.nodup
      refine ⟨Mru.nodup_put h.nodup wake, fun wake' hmem => ?_, _, shows_prepend hnodup wake, List.length_take_le _ _,
        (List.take_sublist _ _).trans (Mru.put_sublist hexisting wake), fun wake' hmem hshort => ?_⟩
      · rcases List.mem_cons.mp hmem with rfl | hmem
        · exact hwake
        · exact h.looks wake' (List.mem_of_mem_filter hmem)
      · rcases List.mem_cons.mp hmem with rfl | hmem
        · exact List.mem_cons_self
        -- it was among the last four before, so the file had it and was not too long
        have hold := hkept wake' (Mru.mem_take_filter h.nodup hmem) hshort
        have he := (hshows.existing hlooks).resolve_right fun hlong =>
          absurd (length_joined_le hlooks hlen hold hshort) (Nat.not_le_of_lt hlong.2)
        have hfilter : wake' ∈ (existing w.file).filter fun y => !y == wake := by
          rw [he]
          exact List.mem_filter.mpr ⟨hold, (List.mem_filter.mp (List.mem_of_mem_take hmem)).2⟩
        exact List.mem_cons_of_mem _ (Mru.mem_take_of_sublist (hexisting.filter _) (h.nodup.filter _) hfilter hmem)
    · exact h

theorem inv_run (events : List Event) : Inv (Run.run World.step {} events) :=
  Run.run_induction (I := fun _ (w : World) => Inv w) inv_start fun _ e _ _ h => h.step e

/-! ## The host that rang -/

/-- What a candidate names. -/
def openWake (A : Aead) (key : BitVec 256) (wake : Text) : Option DeviceId :=
  (decodeHex wake).bind (openWakeBlob A key)

/-- The newest wake that opens is shown. -/
theorem consumePushWake_shows (h : Shows file wakes)
    (hlooks : ∀ wake ∈ wakes, looksLikeWakeBlob wake = true)
    (hlen : wakes.length ≤ maxWakeCandidates) :
    consumePushWake A key file = wakes.findSome? (openWake A key) := by
  cases h with
  | absent => rfl
  | lines h =>
    have hjoined := length_joined h
    have hsum := sum_length_le hlooks
    have hmul : wakes.length * (1024 + 1) ≤ 4 * (1024 + 1) := Nat.mul_le_mul_right _ hlen
    have hfits : ¬ maxWakeFileBytes < (joined wakes).length := by
      rw [maxWakeFileBytes]
      rw [maxWakeHex] at hsum
      omega
    rw [consumePushWake, consumeWakeBlobs, if_neg hfits, parseWakeCandidates,
      splitOn_joined h hlooks, List.take_of_length_le hlen, Mru.findSome?_filterMap]
    rfl

theorem hexDigit_digitChar (h : n < 16) : hexDigit (Nat.digitChar n) = some n := by
  revert n
  decide

theorem hexDecode_hexEncode (bytes : Bytes) : hexDecode (hexEncode bytes).toList = some bytes := by
  rw [hexEncode, String.toList_ofList]
  induction bytes with
  | nil => rfl
  | cons b bytes ih =>
    have hb := b.toNat_lt
    rw [List.flatMap_cons, List.cons_append, List.cons_append, List.nil_append, hexDecode,
      hexDigit_digitChar (by omega), hexDigit_digitChar (by omega), ih]
    simp only [Option.bind_eq_bind, Option.bind_some, Option.pure_def, Nat.div_add_mod,
      UInt8.ofNat_toNat]

theorem length_hexEncode (bytes : Bytes) : (hexEncode bytes).toList.length = 2 * bytes.length := by
  rw [hexEncode, String.toList_ofList]
  induction bytes with
  | nil => rfl
  | cons b bytes ih =>
    rw [List.flatMap_cons, List.length_append, ih, List.length_cons]
    simp only [List.length_cons, List.length_nil]
    omega

theorem toBytes_append_length (nonce : BitVec 192) (ciphertext : Bytes) :
    (toBytes 24 nonce ++ ciphertext).take 24 = toBytes 24 nonce ∧
      (toBytes 24 nonce ++ ciphertext).drop 24 = ciphertext := by
  have hlen := toBytes_length 24 nonce
  exact ⟨List.take_left' hlen, List.drop_left' hlen⟩

theorem openWakeBlob_seal {nonce : BitVec 192} {host : DeviceId} {blob : Bytes} (hA : A.Correct)
    (h : sealWakeBlob A key nonce host = some blob) : openWakeBlob A key blob = some host := by
  obtain ⟨ciphertext, hencrypt, rfl⟩ := Option.map_eq_some_iff.mp h
  obtain ⟨htake, hdrop⟩ := toBytes_append_length nonce ciphertext
  have hlen : ¬ (toBytes 24 nonce ++ ciphertext).length < 24 := by
    rw [List.length_append, toBytes_length]
    omega
  rw [openWakeBlob, if_neg hlen, htake, hdrop, Ticket.ofBytes_toBytes, hA _ _ _ _ _ hencrypt]
  dsimp only
  rw [if_pos (toBytes_length 16 _), Ticket.ofBytes_toBytes]

/-- XChaCha20-Poly1305 adds a tag of 16 bytes. -/
def Overhead (A : Aead) : Prop :=
  ∀ key nonce aad message ciphertext, A.encrypt key nonce aad message = some ciphertext →
    ciphertext.length = message.length + 16

/-- What the host registered is a wake of 112 characters. -/
theorem length_sealed {nonce : BitVec 192} {host : DeviceId} {blob : Bytes} (hA : Overhead A)
    (h : sealWakeBlob A key nonce host = some blob) : (hexEncode blob).toList.length = 112 := by
  obtain ⟨ciphertext, hencrypt, rfl⟩ := Option.map_eq_some_iff.mp h
  rw [length_hexEncode, List.length_append, toBytes_length, hA _ _ _ _ _ hencrypt, toBytes_length]

/-- In every run of arrivals and looks at the file, one after the other and with reads that succeed:
if a wake that this phone sealed for a host was stored, and since then fewer than four other wakes,
none of which opens, then the app goes to that host. -/
theorem sealed_wake_found (hA : A.Correct) (hlen : Overhead A) (events : List Event)
    {nonce : BitVec 192} {host : DeviceId}
    {blob : Bytes} {newer older : List Text} (hseal : sealWakeBlob A key nonce host = some blob)
    (hstored : (Run.run World.step {} events).stored = newer ++ (hexEncode blob).toList :: older)
    (hfew : newer.length < maxWakeCandidates) (hnone : ∀ wake ∈ newer, openWake A key wake = none) :
    consumePushWake A key (Run.run World.step {} events).file = some host := by
  have hinv := inv_run events
  obtain ⟨wakes, hshows, hcount, hsub, hkept⟩ := hinv.file
  have hlooks : ∀ wake ∈ wakes, looksLikeWakeBlob wake = true :=
    fun wake hmem => hinv.looks wake (hsub.subset hmem)
  have hnodup := hinv.nodup
  have hlast : (hexEncode blob).toList ∈ (Run.run World.step {} events).stored.take maxWakeCandidates := by
    rw [hstored, List.take_append, List.mem_append]
    refine .inr ?_
    obtain ⟨k, hk⟩ := Nat.exists_eq_succ_of_ne_zero (Nat.sub_ne_zero_of_lt hfew)
    rw [hk]
    exact List.mem_cons_self
  have hmem := hkept _ hlast (by rw [length_sealed hlen hseal]; decide)
  have hopen : openWake A key (hexEncode blob).toList = some host := by
    rw [openWake, decodeHex_eq (hlooks _ hmem), hexDecode_hexEncode]
    exact openWakeBlob_seal hA hseal
  rw [hstored] at hsub hnodup
  rw [consumePushWake_shows hshows hlooks hcount]
  exact Mru.findSome?_of_sublist hsub hnodup hmem hnone hopen

/-- No other host than that of a wake that was stored. -/
theorem consumed_was_stored (events : List Event) {host : DeviceId}
    (h : consumePushWake A key (Run.run World.step {} events).file = some host) :
    ∃ wake ∈ (Run.run World.step {} events).stored, openWake A key wake = some host := by
  obtain ⟨wakes, hshows, hcount, hsub, -⟩ := (inv_run events).file
  have hlooks : ∀ wake ∈ wakes, looksLikeWakeBlob wake = true :=
    fun wake hmem => (inv_run events).looks wake (hsub.subset hmem)
  rw [consumePushWake_shows hshows hlooks hcount] at h
  obtain ⟨wake, hmem, hopen⟩ := List.exists_of_findSome?_eq_some h
  exact ⟨wake, hsub.subset hmem, hopen⟩

/-- A cipher that only adds the tag. -/
def tagAead : Aead where
  encrypt _ _ _ message := some (message ++ List.replicate 16 0)
  decrypt _ _ _ ciphertext := some (ciphertext.take (ciphertext.length - 16))

theorem tagAead_correct : tagAead.Correct := fun key nonce aad message ciphertext h => by
  cases h
  simp [tagAead]

theorem tagAead_overhead : Overhead tagAead := fun key nonce aad message ciphertext h => by
  cases h
  simp

/-- What the host 7 got. -/
def sampleBlob : Bytes := toBytes 24 5 ++ (toBytes 16 7 ++ List.replicate 16 0)

/-- A wake of the host, and one from somebody else after it. -/
def twoWakes : List Event :=
  [.store (hexEncode sampleBlob).toList true, .store ['z'] true, .store ['0', '0'] true]

theorem sealed_wake_found_two :
    consumePushWake tagAead 0 (Run.run World.step {} twoWakes).file = some ⟨7⟩ := by
  have hseal : sealWakeBlob tagAead 0 5 ⟨7⟩ = some sampleBlob := rfl
  have hstored : (Run.run World.step {} twoWakes).stored =
      [['0', '0']] ++ (hexEncode sampleBlob).toList :: [] := by
    decide +kernel
  exact sealed_wake_found tagAead_correct tagAead_overhead twoWakes hseal hstored (by decide) (by decide)

end Portty.Phone.PushWake
