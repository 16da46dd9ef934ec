import Portty.Lib.Run
import Portty.Lib.Sequence
import Portty.Transport.Crypto

/-!
# The message envelope (`crypto/envelope.rs`)

* `EnvelopeCipher`: seals with the key of one direction and opens with that of the other. A frame
  carries its sequence number in its nonce, and the number and the direction are authenticated.
* `Channel`: the ciphers of a client and a server of one session, with what each side sealed and
  accepted.

The AEAD (XChaCha20-Poly1305) is outside the repository: `Aead` has it as two functions. A result
takes its correctness and, for the run it is about, that what decrypts was encrypted
(`Channel.Unforged`) as hypotheses.

`open` reads its counter, decrypts and then exchanges the counter, so another thread can get between
the two. The value read is an argument of `openLoaded`: any value, which covers every such
interleaving.
-/

namespace Portty

open Run Sequence

/-- An authenticated cipher: encryption can refuse a message, decryption a ciphertext. -/
structure Aead where
  encrypt : (key : BitVec 256) → (nonce : BitVec 192) → (aad message : Bytes) → Option Bytes
  decrypt : (key : BitVec 256) → (nonce : BitVec 192) → (aad ciphertext : Bytes) → Option Bytes

/-- What was encrypted is decrypted. -/
def Aead.Correct (A : Aead) : Prop :=
  ∀ key nonce aad message ciphertext,
    A.encrypt key nonce aad message = some ciphertext →
      A.decrypt key nonce aad ciphertext = some message

/-- What is sent. -/
structure SealedFrame where
  nonce : BitVec 192
  ciphertext : Bytes
  deriving DecidableEq, Repr

/-- The keys of the two directions and the numbers of the frames. -/
structure EnvelopeCipher where
  sealKey : BitVec 256
  openKey : BitVec 256
  sealAad : Bytes
  openAad : Bytes
  nextSealSequence : BitVec 64 := 1
  lastOpenSequence : BitVec 64 := 0
  deriving DecidableEq, Repr

/-- `envelope_aad`. -/
def envelopeAad (direction : Bytes) (sequence : BitVec 64) (callerAad : Bytes) : Bytes :=
  direction ++ toBytes 8 sequence ++ callerAad

/-- The first 8 bytes of a nonce. -/
def nonceSequence (nonce : BitVec 192) : BitVec 64 := nonce.extractLsb' 128 64

namespace EnvelopeCipher

/-- The label of the key of this direction. -/
def clientToServerKeyLabel : Bytes := label "portty-app-envelope-v2/client-to-server"

/-- The label of the key of this direction. -/
def serverToClientKeyLabel : Bytes := label "portty-app-envelope-v2/server-to-client"

/-- What frames of this direction are bound to. -/
def clientToServerAad : Bytes := label "portty-envelope/client-to-server"

/-- What frames of this direction are bound to. -/
def serverToClientAad : Bytes := label "portty-envelope/server-to-client"

section Roles

variable (C : Crypto) (session : SessionSecret)

/-- Both keys come from the session. -/
def fromSessionLabels (sealKeyLabel openKeyLabel sealAad openAad : Bytes) : EnvelopeCipher :=
  { sealKey := C.deriveSubkey session sealKeyLabel
    openKey := C.deriveSubkey session openKeyLabel
    sealAad, openAad }

/-- What the client seals with. -/
def forClient : EnvelopeCipher :=
  fromSessionLabels C session clientToServerKeyLabel serverToClientKeyLabel clientToServerAad
    serverToClientAad

/-- The same, the other way round. -/
def forServer : EnvelopeCipher :=
  fromSessionLabels C session serverToClientKeyLabel clientToServerKeyLabel serverToClientAad
    clientToServerAad

end Roles

variable (A : Aead) (c : EnvelopeCipher)

/-- `seal`. The sequence number is used up also when the seal fails; `random` is `none` when the
generator of random numbers fails. -/
def «seal» (plaintext aad : Bytes) (random : Option (BitVec 128)) :
    Except SyncError SealedFrame × EnvelopeCipher :=
  let sequence := c.nextSealSequence
  let c := { c with nextSealSequence := sequence + 1 }
  if sequence = BitVec.allOnes 64 then (.error .nonceExhausted, c)
  else
    match random with
    | none => (.error .rng, c)
    | some random =>
      let nonce : BitVec 192 := sequence ++ random
      match A.encrypt c.sealKey nonce (envelopeAad c.sealAad sequence aad) plaintext with
      | none => (.error .decrypt, c)
      | some ciphertext => (.ok ⟨nonce, ciphertext⟩, c)

/-- `u64::saturating_add(1)`. -/
def saturatingSucc64 (n : BitVec 64) : BitVec 64 := if n = BitVec.allOnes 64 then n else n + 1

/-- `open`, where `last` is the counter as it was read at the start. -/
def openLoaded (last : BitVec 64) (nonce : BitVec 192) (ciphertext aad : Bytes) :
    Except SyncError Bytes × EnvelopeCipher :=
  let sequence := nonceSequence nonce
  if last = BitVec.allOnes 64 then (.error .nonceExhausted, c)
  else if sequence ≠ last + 1 then (.error (.replay (last + 1) sequence), c)
  else
    match A.decrypt c.openKey nonce (envelopeAad c.openAad sequence aad) ciphertext with
    | none => (.error .decrypt, c)
    | some plaintext =>
      if c.lastOpenSequence = last then (.ok plaintext, { c with lastOpenSequence := sequence })
      else (.error (.replay (saturatingSucc64 c.lastOpenSequence) sequence), c)

/-- `open` with nothing in between. -/
def «open» (nonce : BitVec 192) (ciphertext aad : Bytes) :
    Except SyncError Bytes × EnvelopeCipher :=
  c.openLoaded A c.lastOpenSequence nonce ciphertext aad

end EnvelopeCipher

/-! ## The two sides -/

/-- The ends of a channel. -/
inductive Role where
  | client
  | server
  deriving DecidableEq, Repr

/-- The other end. -/
def Role.peer : Role → Role
  | client => server
  | server => client

theorem Role.peer_ne (r : Role) : r.peer ≠ r := by cases r <;> decide

theorem Role.peer_eq {r role : Role} (h : r ≠ role) : r.peer = role := by
  cases r <;> cases role <;> first | rfl | exact absurd rfl h

/-- A message that was sealed, with its number and its frame. -/
structure Sealed where
  sequence : BitVec 64
  plaintext : Bytes
  aad : Bytes
  frame : SealedFrame
  deriving DecidableEq, Repr

/-- One side: its cipher, what it sealed and what it accepted. -/
structure Endpoint where
  cipher : EnvelopeCipher
  sent : List Sealed := []
  accepted : List (Bytes × Bytes) := []
  deriving DecidableEq, Repr

/-- Both sides. -/
abbrev Channel := Role → Endpoint

/-- What happens on a side: a message is sealed, or anything at all is presented to `open`. -/
inductive ChannelEvent where
  | «seal» (role : Role) (plaintext aad : Bytes) (random : Option (BitVec 128))
  | «open» (role : Role) (loaded : BitVec 64) (nonce : BitVec 192) (ciphertext aad : Bytes)
  deriving DecidableEq, Repr

namespace Endpoint

variable (A : Aead) (e : Endpoint)

/-- A frame is sealed, and counted only if that succeeds. -/
def «seal» (plaintext aad : Bytes) (random : Option (BitVec 128)) : Endpoint :=
  match e.cipher.seal A plaintext aad random with
  | (.ok frame, cipher) =>
    { e with cipher, sent := e.sent ++ [⟨e.cipher.nextSealSequence, plaintext, aad, frame⟩] }
  | (.error _, cipher) => { e with cipher }

/-- A frame is opened, and accepted only if that succeeds. -/
def «open» (loaded : BitVec 64) (nonce : BitVec 192) (ciphertext aad : Bytes) : Endpoint :=
  match e.cipher.openLoaded A loaded nonce ciphertext aad with
  | (.ok plaintext, cipher) => { e with cipher, accepted := e.accepted ++ [(plaintext, aad)] }
  | (.error _, cipher) => { e with cipher }

end Endpoint

/-! ## One side -/

namespace Endpoint

/-- The sealed messages with their numbers. -/
def numbers (e : Endpoint) : List (Nat × (Bytes × Bytes)) :=
  e.sent.map fun x => (x.sequence.toNat, (x.plaintext, x.aad))

/-- The frame is the encryption of the message under its number. -/
structure FrameOf (A : Aead) (c : EnvelopeCipher) (x : Sealed) : Prop where
  sequence : nonceSequence x.frame.nonce = x.sequence
  encrypt : A.encrypt c.sealKey x.frame.nonce (envelopeAad c.sealAad x.sequence x.aad) x.plaintext =
    some x.frame.ciphertext

variable {A : Aead} {e : Endpoint}

theorem nonceSequence_append (sequence : BitVec 64) (random : BitVec 128) :
    nonceSequence (sequence ++ random) = sequence := by
  apply BitVec.eq_of_getLsbD_eq
  intro i hi
  have h : (sequence ++ random).getLsbD (128 + i) = _ := BitVec.getLsbD_append
  simp only [nonceSequence, BitVec.getLsbD_extractLsb', hi, decide_true, Bool.true_and]
  exact h.trans (by simp)

/-- A seal uses up a number and appends at most one message, with that number. -/
theorem seal_cases (A : Aead) (e : Endpoint) (plaintext aad : Bytes)
    (random : Option (BitVec 128)) :
    e.seal A plaintext aad random =
      { e with cipher.nextSealSequence := e.cipher.nextSealSequence + 1 } ∨
    e.cipher.nextSealSequence ≠ BitVec.allOnes 64 ∧ ∃ frame,
      FrameOf A e.cipher ⟨e.cipher.nextSealSequence, plaintext, aad, frame⟩ ∧
      e.seal A plaintext aad random =
        { e with
          cipher.nextSealSequence := e.cipher.nextSealSequence + 1
          sent := e.sent ++ [⟨e.cipher.nextSealSequence, plaintext, aad, frame⟩] } := by
  unfold Endpoint.seal EnvelopeCipher.seal
  dsimp only
  by_cases hn : e.cipher.nextSealSequence = BitVec.allOnes 64
  · exact .inl (by simp only [if_pos hn])
  simp only [if_neg hn]
  cases random with
  | none => exact .inl rfl
  | some random =>
    dsimp only
    cases he : A.encrypt e.cipher.sealKey (e.cipher.nextSealSequence ++ random)
        (envelopeAad e.cipher.sealAad e.cipher.nextSealSequence aad) plaintext with
    | none => exact .inl rfl
    | some ciphertext =>
      exact .inr ⟨hn, ⟨_, ciphertext⟩, ⟨nonceSequence_append _ _, he⟩, rfl⟩

/-- `open` changes nothing, or accepts the frame with the number after the last one. -/
theorem openLoaded_cases (A : Aead) (c : EnvelopeCipher) (loaded : BitVec 64) (nonce : BitVec 192)
    (ciphertext aad : Bytes) :
    (∃ err, c.openLoaded A loaded nonce ciphertext aad = (.error err, c)) ∨
    c.lastOpenSequence ≠ BitVec.allOnes 64 ∧ nonceSequence nonce = c.lastOpenSequence + 1 ∧
      ∃ message, A.decrypt c.openKey nonce (envelopeAad c.openAad (nonceSequence nonce) aad)
        ciphertext = some message ∧
      c.openLoaded A loaded nonce ciphertext aad =
        (.ok message, { c with lastOpenSequence := nonceSequence nonce }) := by
  unfold EnvelopeCipher.openLoaded
  dsimp only
  split
  · exact .inl ⟨_, rfl⟩
  rename_i hl
  split
  · exact .inl ⟨_, rfl⟩
  rename_i hs
  split
  · exact .inl ⟨_, rfl⟩
  rename_i message hm
  split
  · rename_i hlast
    subst hlast
    exact .inr ⟨hl, not_not.mp hs, message, hm, rfl⟩
  · exact .inl ⟨_, rfl⟩

/-- What holds of a side after `k` calls of `seal`; `e₀` is how it started. -/
structure Ok (A : Aead) (e₀ : Endpoint) (k : Nat) (e : Endpoint) : Prop where
  sealKey : e.cipher.sealKey = e₀.cipher.sealKey
  openKey : e.cipher.openKey = e₀.cipher.openKey
  sealAad : e.cipher.sealAad = e₀.cipher.sealAad
  openAad : e.cipher.openAad = e₀.cipher.openAad
  next : e.cipher.nextSealSequence.toNat = k + 1
  last : e.cipher.lastOpenSequence.toNat = e.accepted.length
  frames : ∀ x ∈ e.sent, FrameOf A e₀.cipher x
  numbered : Numbered e.numbers (k + 1)

variable {e₀ : Endpoint} {k : Nat}

theorem toNat_succ {n : BitVec 64} (h : n.toNat + 1 < 2 ^ 64) : (n + 1).toNat = n.toNat + 1 := by
  rw [BitVec.toNat_add]
  exact Nat.mod_eq_of_lt h

/-- A seal takes the next number. -/
theorem ok_seal (h : Ok A e₀ k e) (hk : k + 2 < 2 ^ 64) (plaintext aad : Bytes)
    (random : Option (BitVec 128)) :
    Ok A e₀ (k + 1) (e.seal A plaintext aad random) ∧
      (e.seal A plaintext aad random).accepted = e.accepted ∧
      ∃ rest, (e.seal A plaintext aad random).numbers = e.numbers ++ rest := by
  have hnext : (e.cipher.nextSealSequence + 1).toNat = k + 1 + 1 := by
    rw [toNat_succ (by rw [h.next]; omega), h.next]
  rcases seal_cases A e plaintext aad random with he | ⟨-, frame, hf, he⟩
  · rw [he]
    exact ⟨⟨h.sealKey, h.openKey, h.sealAad, h.openAad, hnext, h.last, h.frames, h.numbered.skip⟩,
      rfl, [], (List.append_nil _).symm⟩
  · have hnum : numbers { e with
        cipher.nextSealSequence := e.cipher.nextSealSequence + 1
        sent := e.sent ++ [⟨e.cipher.nextSealSequence, plaintext, aad, frame⟩] } =
        e.numbers ++ [(k + 1, (plaintext, aad))] := by
      simp only [numbers, List.map_append, List.map_singleton, h.next]
    rw [he]
    refine ⟨⟨h.sealKey, h.openKey, h.sealAad, h.openAad, hnext, h.last, ?_, ?_⟩, rfl, _, hnum⟩
    · intro x hx
      rcases List.mem_append.mp hx with hx | hx
      · exact h.frames x hx
      · rw [List.mem_singleton.mp hx]
        exact ⟨hf.sequence, by rw [← h.sealKey, ← h.sealAad]; exact hf.encrypt⟩
    · rw [hnum]
      exact h.numbered.send (Nat.succ_pos k) _

end Endpoint

namespace Channel

variable (A : Aead)

/-- The ciphers of one session. -/
def start (C : Crypto) (session : SessionSecret) : Channel
  | .client => { cipher := .forClient C session }
  | .server => { cipher := .forServer C session }

/-- One event. -/
def step (σ : Channel) : ChannelEvent → Channel
  | .seal role plaintext aad random =>
    Function.update σ role ((σ role).seal A plaintext aad random)
  | .open role loaded nonce ciphertext aad =>
    Function.update σ role ((σ role).open A loaded nonce ciphertext aad)

/-- What decrypts was encrypted: under the same key, with the same nonce and the same authenticated
data, by one of the two sides. -/
def Unforged (σ : Channel) : ChannelEvent → Prop
  | .seal .. => True
  | .open role _ nonce ciphertext aad => ∀ message,
    A.decrypt (σ role).cipher.openKey nonce
        (envelopeAad (σ role).cipher.openAad (nonceSequence nonce) aad) ciphertext = some message →
      ∃ sender, ∃ x ∈ (σ sender).sent, (σ sender).cipher.sealKey = (σ role).cipher.openKey ∧
        x.frame = ⟨nonce, ciphertext⟩ ∧ x.plaintext = message ∧
        envelopeAad (σ sender).cipher.sealAad x.sequence x.aad =
          envelopeAad (σ role).cipher.openAad (nonceSequence nonce) aad

/-- Nothing is forged in the run. -/
def UnforgedRun (σ : Channel) (evs : List ChannelEvent) : Prop :=
  ∀ pre ev post, evs = pre ++ ev :: post → Unforged A (run (step A) σ pre) ev

/-! ## Every run -/

variable {A} {C : Crypto} {session : SessionSecret} {σ : Channel} {evs : List ChannelEvent}

/-- The event seals a message on this side. -/
def sealsOn (role : Role) : ChannelEvent → Bool
  | .seal r _ _ _ => r = role
  | .open .. => false

/-- What holds of a channel whose sides have made `k` calls of `seal`. -/
structure Inv (A : Aead) (C : Crypto) (session : SessionSecret) (k : Role → Nat) (σ : Channel) :
    Prop where
  sides : ∀ r, Endpoint.Ok A (start C session r) (k r) (σ r)
  received : ∀ r, Received (σ r.peer).numbers (σ r).accepted

theorem inv_start (A : Aead) (C : Crypto) (session : SessionSecret) :
    Inv A C session (fun _ => 0) (start C session) where
  sides r := by
    cases r <;> exact ⟨rfl, rfl, rfl, rfl, rfl, rfl, nofun, Numbered.nil _⟩
  received r := by
    cases r <;> exact Received.nil _

theorem inv_seal {k : Role → Nat} (h : Inv A C session k σ) (role : Role)
    (hk : k role + 2 < 2 ^ 64) (plaintext aad : Bytes) (random : Option (BitVec 128)) :
    Inv A C session (Function.update k role (k role + 1))
      (step A σ (.seal role plaintext aad random)) := by
  obtain ⟨hok, hacc, rest, hnum⟩ := Endpoint.ok_seal (h.sides role) hk plaintext aad random
  refine ⟨fun r => ?_, fun r => ?_⟩
  · by_cases hr : r = role
    · subst hr; simpa [step] using hok
    · simpa [step, hr] using h.sides r
  · by_cases hr : r = role
    · subst hr
      simpa [step, r.peer_ne, hacc] using h.received r
    · simpa [step, hr, Role.peer_eq hr, hnum] using (Role.peer_eq hr ▸ h.received r).append rest

/-- The authenticated data determine the direction, the number and the caller's data. -/
theorem envelopeAad_inj {direction direction' : Bytes} {sequence sequence' : BitVec 64}
    {aad aad' : Bytes} (hl : direction.length = direction'.length)
    (h : envelopeAad direction sequence aad = envelopeAad direction' sequence' aad') :
    direction = direction' ∧ sequence = sequence' ∧ aad = aad' := by
  unfold envelopeAad at h
  obtain ⟨h₁, h₂⟩ := List.append_inj h (by simp [toBytes_length, hl])
  obtain ⟨h₃, h₄⟩ := List.append_inj h₁ hl
  exact ⟨h₃, toBytes_injective 8 h₄, h₂⟩

theorem direction_aads : EnvelopeCipher.serverToClientAad.length =
      EnvelopeCipher.clientToServerAad.length ∧
    EnvelopeCipher.serverToClientAad ≠ EnvelopeCipher.clientToServerAad := by
  decide

/-- What a side opens with is what the other seals with, and not what it seals with itself. -/
theorem start_openAad (C : Crypto) (session : SessionSecret) (r : Role) :
    (start C session r).cipher.openAad = (start C session r.peer).cipher.sealAad ∧
      (start C session r).cipher.openKey = (start C session r.peer).cipher.sealKey ∧
      (start C session r).cipher.openAad.length = (start C session r).cipher.sealAad.length ∧
      (start C session r).cipher.openAad ≠ (start C session r).cipher.sealAad := by
  cases r with
  | client => exact ⟨rfl, rfl, direction_aads⟩
  | server => exact ⟨rfl, rfl, direction_aads.1.symm, direction_aads.2.symm⟩

/-- A frame that decrypts was sealed by the other side, with the number of its nonce and with the
caller's data. -/
theorem sealed_of_unforged {k : Role → Nat} (h : Inv A C session k σ) {role : Role}
    {loaded : BitVec 64} {nonce : BitVec 192} {ciphertext aad message : Bytes}
    (hu : Unforged A σ (.open role loaded nonce ciphertext aad))
    (hd : A.decrypt (σ role).cipher.openKey nonce
      (envelopeAad (σ role).cipher.openAad (nonceSequence nonce) aad) ciphertext = some message) :
    ((nonceSequence nonce).toNat, (message, aad)) ∈ (σ role.peer).numbers := by
  obtain ⟨sender, x, hx, -, -, rfl, haad⟩ := hu message hd
  obtain ⟨ho, -, hlen, hne⟩ := start_openAad C session role
  rw [(h.sides sender).sealAad, (h.sides role).openAad] at haad
  by_cases hs : sender = role
  · subst hs
    exact absurd (envelopeAad_inj hlen.symm haad).1.symm hne
  · obtain rfl := Role.peer_eq (Ne.symm hs)
    rw [ho] at haad
    obtain ⟨-, hseq, rfl⟩ := envelopeAad_inj rfl haad
    rw [← hseq]
    exact List.mem_map.mpr ⟨x, hx, rfl⟩

/-- What is accepted was sealed by the other side. -/
theorem inv_open {k : Role → Nat} (h : Inv A C session k σ) (role : Role) (loaded : BitVec 64)
    (nonce : BitVec 192) (ciphertext aad : Bytes)
    (hu : Unforged A σ (.open role loaded nonce ciphertext aad)) :
    Inv A C session k (step A σ (.open role loaded nonce ciphertext aad)) := by
  rcases Endpoint.openLoaded_cases A (σ role).cipher loaded nonce ciphertext aad with
    ⟨err, he⟩ | ⟨hlast, hseq, message, hd, he⟩
  · have hσ : step A σ (.open role loaded nonce ciphertext aad) = σ := by
      simp only [step, Endpoint.open, he, Function.update_eq_self]
    rw [hσ]
    exact h
  · have hm := sealed_of_unforged h hu hd
    have hok := h.sides role
    have hlast' : (nonceSequence nonce).toNat = (σ role).accepted.length + 1 := by
      have hne : (σ role).cipher.lastOpenSequence.toNat ≠ 2 ^ 64 - 1 := fun hn =>
        hlast (BitVec.eq_of_toNat_eq (hn.trans (BitVec.toNat_allOnes).symm))
      have hlt := (σ role).cipher.lastOpenSequence.isLt
      rw [hseq, Endpoint.toNat_succ (by omega), hok.last]
    rw [hlast'] at hm
    simp only [step, Endpoint.open, he]
    refine ⟨fun r => ?_, fun r => ?_⟩
    · by_cases hr : r = role
      · subst hr
        rw [Function.update_self]
        exact ⟨hok.sealKey, hok.openKey, hok.sealAad, hok.openAad, hok.next,
          by simpa using hlast', hok.frames, hok.numbered⟩
      · rw [Function.update_of_ne hr]
        exact h.sides r
    · by_cases hr : r = role
      · subst hr
        rw [Function.update_self, Function.update_of_ne r.peer_ne]
        exact (h.received r).accept (h.sides r.peer).numbered hm
      · obtain rfl := Role.peer_eq hr
        rw [Function.update_self, Function.update_of_ne hr]
        exact h.received r

/-- After a run with fewer than `2^64 - 1` seals on each side, in which nothing is forged. -/
theorem inv_run (hu : UnforgedRun A (start C session) evs)
    (hn : ∀ r, evs.countP (sealsOn r) < 2 ^ 64 - 1) :
    Inv A C session (fun r => evs.countP (sealsOn r)) (run (step A) (start C session) evs) := by
  refine run_induction (I := fun evs σ => Inv A C session (fun r => evs.countP (sealsOn r)) σ)
    (inv_start A C session) fun pre ev post he h => ?_
  have hcount : ∀ r, pre.countP (sealsOn r) + (if sealsOn r ev then 1 else 0) < 2 ^ 64 - 1 := by
    intro r
    have := hn r
    rw [he, List.countP_append, List.countP_cons] at this
    omega
  cases ev with
  | «seal» role plaintext aad random =>
    have hk := hcount role
    simp only [sealsOn, decide_true, ↓reduceIte] at hk
    have h' := inv_seal h role (by omega) plaintext aad random
    convert h' using 1
    funext r
    by_cases hr : r = role
    · subst hr; simp [sealsOn]
    · simp [sealsOn, hr, Ne.symm hr]
  | «open» role loaded nonce ciphertext aad =>
    have h' := inv_open h role loaded nonce ciphertext aad (hu pre _ post he)
    simpa [sealsOn] using h'

/-- The frame with the next number is accepted. -/
theorem open_next {k : Role → Nat} (hA : A.Correct) (h : Inv A C session k σ) {role : Role}
    {x : Sealed} (hx : x ∈ (σ role.peer).sent)
    (hs : x.sequence.toNat = (σ role).accepted.length + 1) :
    ((σ role).cipher.open A x.frame.nonce x.frame.ciphertext x.aad).1 = .ok x.plaintext := by
  obtain ⟨ho, hkey, -, -⟩ := start_openAad C session role
  have hok := h.sides role
  have hf := (h.sides role.peer).frames x hx
  have hlt := x.sequence.isLt
  have hlast : (σ role).cipher.lastOpenSequence ≠ BitVec.allOnes 64 := by
    intro hl
    have := hok.last
    rw [hl, BitVec.toNat_allOnes] at this
    omega
  have hseq : nonceSequence x.frame.nonce = (σ role).cipher.lastOpenSequence + 1 := by
    rw [hf.sequence]
    apply BitVec.eq_of_toNat_eq
    rw [Endpoint.toNat_succ (by rw [hok.last]; omega), hs, hok.last]
  have hd := hA _ _ _ _ _ hf.encrypt
  rw [← hkey, ← ho, ← hok.openKey, ← hok.openAad, ← hf.sequence] at hd
  rw [hseq] at hd
  simp only [EnvelopeCipher.open, EnvelopeCipher.openLoaded, if_neg hlast, hseq, hd, ne_eq,
    not_true_eq_false, ↓reduceIte]

/-- In every run in which nothing is forged, whatever is dropped, repeated, reordered, reflected or
presented with other data: what a side accepts is a prefix of what the other sealed; a failed `open`
changes nothing; and the frame with the next number is accepted. That is the next sealed frame, if
no `seal` failed. -/
theorem ordered_channel (A : Aead) (hA : A.Correct) (C : Crypto) (session : SessionSecret)
    (evs : List ChannelEvent) (hu : UnforgedRun A (start C session) evs)
    (hn : ∀ r, evs.countP (sealsOn r) < 2 ^ 64 - 1) (role : Role) (σ : Channel)
    (hσ : σ = run (step A) (start C session) evs) :
    (σ role).accepted <+: (σ role.peer).sent.map (fun x => (x.plaintext, x.aad)) ∧
    (∀ loaded nonce ciphertext aad err,
      ((σ role).cipher.openLoaded A loaded nonce ciphertext aad).1 = .error err →
      ((σ role).cipher.openLoaded A loaded nonce ciphertext aad).2 = (σ role).cipher) ∧
    (∀ x ∈ (σ role.peer).sent, x.sequence.toNat = (σ role).accepted.length + 1 →
      ((σ role).cipher.open A x.frame.nonce x.frame.ciphertext x.aad).1 = .ok x.plaintext) ∧
    ((σ role.peer).sent.length = evs.countP (sealsOn role.peer) →
      ∀ x, (σ role.peer).sent[(σ role).accepted.length]? = some x →
        ((σ role).cipher.open A x.frame.nonce x.frame.ciphertext x.aad).1 = .ok x.plaintext) := by
  have h := inv_run hu hn
  rw [← hσ] at h
  refine ⟨?_, ?_, fun x hx hs => open_next hA h hx hs, fun hlen x hx => ?_⟩
  · have := (h.received role).isPrefix
    rwa [Endpoint.numbers, List.map_map] at this
  · intro loaded nonce ciphertext aad err he
    rcases Endpoint.openLoaded_cases A (σ role).cipher loaded nonce ciphertext aad with
      ⟨_, ho⟩ | ⟨-, -, message, -, ho⟩
    · rw [ho]
    · rw [ho] at he; cases he
  · refine open_next hA h (List.mem_of_getElem? hx) ?_
    refine (h.sides role.peer).numbered.gapless (m := (x.plaintext, x.aad)) ?_ ?_
    · rw [Endpoint.numbers, List.length_map, hlen]
    · rw [Endpoint.numbers, List.getElem?_map, hx, Option.map_some]

theorem unforgedRun_nil : UnforgedRun A σ [] := by
  intro pre ev post he
  cases pre <;> cases he

theorem unforgedRun_cons {ev : ChannelEvent} (h : Unforged A σ ev)
    (h' : UnforgedRun A (step A σ ev) evs) : UnforgedRun A σ (ev :: evs) := by
  rintro (_ | ⟨_, pre⟩) ev' post he
  · cases he; exact h
  · cases he; exact h' pre ev' post rfl

/-- A cipher that can be evaluated: the message behind a header that names the key, the nonce and
the authenticated data. -/
def headerAead : Aead where
  encrypt key nonce aad message :=
    some (toBytes 32 key ++ toBytes 24 nonce ++ aad ++ message)
  decrypt key nonce aad ciphertext :=
    if ciphertext.take (56 + aad.length) = toBytes 32 key ++ toBytes 24 nonce ++ aad then
      some (ciphertext.drop (56 + aad.length))
    else none

theorem headerAead_correct : headerAead.Correct := by
  intro key nonce aad message ciphertext h
  have hl : (toBytes 32 key ++ toBytes 24 nonce ++ aad).length = 56 + aad.length := by
    simp [toBytes_length]
    omega
  obtain rfl := Option.some.inj h
  simp only [headerAead, ← hl, List.take_left, List.drop_left, ↓reduceIte]

/-- The frame of the client's first message. -/
def firstFrame : SealedFrame :=
  ⟨(1 : BitVec 64) ++ (9 : BitVec 128),
    toBytes 32 (start Crypto.affine ⟨3⟩ .client).cipher.sealKey ++
      toBytes 24 ((1 : BitVec 64) ++ (9 : BitVec 128)) ++
      envelopeAad EnvelopeCipher.clientToServerAad 1 [1] ++ [104]⟩

/-- The client seals a message; its frame is reflected to it, then delivered, then repeated. -/
def reflectedRun : List ChannelEvent :=
  [.seal .client [104] [1] (some 9),
    .open .client 0 firstFrame.nonce firstFrame.ciphertext [1],
    .open .server 0 firstFrame.nonce firstFrame.ciphertext [1],
    .open .server 1 firstFrame.nonce firstFrame.ciphertext [1]]

/-- A run in which a message comes back to its sender. -/
theorem unforgedRun_reflectedRun :
    UnforgedRun headerAead (start Crypto.affine ⟨3⟩) reflectedRun := by
  have hserver : ∀ σ : Channel, (σ .client).sent = [⟨1, [104], [1], firstFrame⟩] →
      (σ .client).cipher.sealKey = (start Crypto.affine ⟨3⟩ .client).cipher.sealKey →
      (σ .client).cipher.sealAad = EnvelopeCipher.clientToServerAad →
      (σ .server).cipher.openKey = (start Crypto.affine ⟨3⟩ .client).cipher.sealKey →
      (σ .server).cipher.openAad = EnvelopeCipher.clientToServerAad → ∀ loaded,
      Unforged headerAead σ (.open .server loaded firstFrame.nonce firstFrame.ciphertext [1]) := by
    intro σ hs hk ha hk' ha' loaded message hd
    have hm : headerAead.decrypt (start Crypto.affine ⟨3⟩ .client).cipher.sealKey firstFrame.nonce
        (envelopeAad EnvelopeCipher.clientToServerAad (nonceSequence firstFrame.nonce) [1])
        firstFrame.ciphertext = some [104] := by decide +kernel
    rw [hk', ha', hm] at hd
    refine ⟨.client, ⟨1, [104], [1], firstFrame⟩, by rw [hs]; exact List.mem_singleton_self _,
      hk.trans hk'.symm, rfl, Option.some.inj hd, by rw [ha, ha']; decide⟩
  refine unforgedRun_cons trivial (unforgedRun_cons ?_ (unforgedRun_cons ?_ (unforgedRun_cons ?_
    unforgedRun_nil)))
  · intro message hd
    have hn : headerAead.decrypt (start Crypto.affine ⟨3⟩ .client).cipher.openKey firstFrame.nonce
        (envelopeAad EnvelopeCipher.serverToClientAad (nonceSequence firstFrame.nonce) [1])
        firstFrame.ciphertext = none := by decide +kernel
    exact nomatch hn.symm.trans hd
  · exact hserver _ (by decide +kernel) (by decide +kernel) (by decide +kernel)
      (by decide +kernel) (by decide +kernel) _
  · exact hserver _ (by decide +kernel) (by decide +kernel) (by decide +kernel)
      (by decide +kernel) (by decide +kernel) _

/-- The server has accepted the message once. -/
theorem ordered_channel_reflected :
    (run (step headerAead) (start Crypto.affine ⟨3⟩) reflectedRun .server).accepted =
        [([104], [1])] ∧
      (run (step headerAead) (start Crypto.affine ⟨3⟩) reflectedRun .server).accepted <+:
        (run (step headerAead) (start Crypto.affine ⟨3⟩) reflectedRun .client).sent.map
          fun x => (x.plaintext, x.aad) :=
  ⟨by decide +kernel,
    (ordered_channel headerAead headerAead_correct Crypto.affine ⟨3⟩ reflectedRun
      unforgedRun_reflectedRun (fun r => by cases r <;> decide) .server _ rfl).1⟩

end Channel

end Portty
