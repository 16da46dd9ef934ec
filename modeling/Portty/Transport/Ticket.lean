import Mathlib.Data.Finset.Sort
import Portty.App.LocalNames
import Portty.Host.TerminalCapture
import Portty.Lib.Base64
import Portty.Lib.Quote
import Portty.Transport.Crypto
import Portty.Transport.Frame

/-!
# Pairing tickets (`iroh.rs`)

A full ticket (`portty1:`) is the JSON of an address, with the one-time secret; a compact one
(`portty3:`) is the node id and the secret. The encoder takes one relay URL and every direct
address, the decoder takes 16 addresses and codes of at most `maxTicketChars`.

* `decodeTicket_encode`, `decodeTicketSecret_encode`: what comes back from a full ticket.
* `acceptedAs_unique`: a code is of one kind.
* `ticket_round_trip`: both kinds of tickets, and every code.
-/

namespace Portty.Ticket

open Host.AgentTurn (isWhitespace trim)
open Framing (word word_toBytes)
open TerminalCapture (byteLen byteLen_append byteLen_cons)
open LocalFiles (stripPrefix stripPrefix_eq)

/-- Texts are lists of characters. -/
abbrev Text := List Char

/-- The longest code that is read, in bytes. -/
def maxTicketChars : Nat := 4096

/-- The most addresses of a code. -/
def maxTicketAddrs : Nat := 16

/-- The JSON of a full code. -/
structure TicketWire where
  nid : Text
  a : List Text
  r : Option Text
  s : Option Text

/-- `EndpointAddr`: its set of addresses by kind, in the order of the set. -/
structure NodeAddr (NodeId Url Addr : Type) where
  id : NodeId
  relayUrls : Finset Url
  ipAddrs : Finset Addr

/-- The functions of `base64`, `serde_json`, `hex` and of the types of `iroh`, an error as its text.
-/
structure Codec (NodeId Url Addr : Type) where
  b64Encode : Bytes → Text
  b64Decode : Text → Except String Bytes
  toJson : TicketWire → Except String Bytes
  fromJson : Bytes → Except String TicketWire
  hexEncode : Bytes → Text
  idBytes : NodeId → Bytes
  idText : NodeId → Text
  parseId : Text → Except String NodeId
  urlText : Url → Text
  parseUrl : Text → Except String Url
  addrText : Addr → Text
  parseAddr : Text → Option Addr

section Code

variable {NodeId Url Addr : Type} (c : Codec NodeId Url Addr)

/-! ## Secrets -/

/-- The bytes as an array. -/
def ofBytes (n : Nat) (bytes : Bytes) : BitVec (8 * n) := .ofNat _ (word bytes)

/-- Only a secret of 128 bits fits a compact code. -/
def ticketBytes : PairingSecret → Option (BitVec 128)
  | .ticket bytes => some bytes
  | .manual _ => none

/-- A secret as text. -/
def toB64 (secret : PairingSecret) : Text := c.b64Encode secret.asBytes

/-- The length tells the two kinds of secrets apart. -/
def fromB64 (s : Text) : Option PairingSecret :=
  match c.b64Decode s with
  | .error _ => none
  | .ok bytes =>
    if bytes.length = 16 then some (.ticket (ofBytes 16 bytes))
    else if bytes.length = 6 then some (.manual (ofBytes 6 bytes))
    else none

theorem ofBytes_toBytes (n : Nat) (w : BitVec (8 * n)) : ofBytes n (toBytes n w) = w := by
  rw [ofBytes, word_toBytes, BitVec.ofNat_toNat, BitVec.setWidth_eq]

theorem fromB64_toB64 {c : Codec NodeId Url Addr}
    (h : ∀ bytes, c.b64Decode (c.b64Encode bytes) = .ok bytes)
    (secret : PairingSecret) : fromB64 c (toB64 c secret) = some secret := by
  rw [fromB64, toB64, h]
  cases secret with
  | ticket bytes =>
    have hlen : (PairingSecret.ticket bytes).asBytes.length = 16 := toBytes_length 16 bytes
    simp only [hlen, if_true]
    exact congrArg some (congrArg PairingSecret.ticket (ofBytes_toBytes 16 bytes))
  | manual bytes =>
    have hlen : (PairingSecret.manual bytes).asBytes.length = 6 := toBytes_length 6 bytes
    simp only [hlen, if_true]
    exact congrArg some (congrArg PairingSecret.manual (ofBytes_toBytes 6 bytes))

/-! ## What the code relies on -/

/-- What the code relies on: a decoder reads what its encoder has written. The characters of base64
are no white space and have one byte each, 48 bytes are 64 of them, and the hexadecimal bytes of a
node id are its text in lower case. The text of a direct address does not have its IPv6 flow label.
-/
structure Codec.Lawful (unlabelled : Addr → Addr) : Prop where
  b64 : ∀ bytes, c.b64Decode (c.b64Encode bytes) = .ok bytes
  b64Char : ∀ bytes, ∀ x ∈ c.b64Encode bytes, isWhitespace x = false ∧ x.utf8Size = 1
  b64Length : ∀ bytes, bytes.length = 48 → (c.b64Encode bytes).length = 64
  json : ∀ wire, ∃ bytes, c.toJson wire = .ok bytes ∧ c.fromJson bytes = .ok wire
  idLength : ∀ id, (c.idBytes id).length = 32
  id : ∀ id, c.parseId (c.idText id) = .ok id
  idHex : ∀ id, c.parseId (c.hexEncode (c.idBytes id)) = .ok id
  url : ∀ url, c.parseUrl (c.urlText url) = .ok url
  addr : ∀ addr, c.parseAddr (c.addrText addr) = some (unlabelled addr)

/-- A code that an encoder has written has no white space in it. -/
theorem trim_code {c : Codec NodeId Url Addr} {unlabelled : Addr → Addr} (h : c.Lawful unlabelled)
    (pre : Text)
    (hpre : pre.all (!isWhitespace ·) = true) (bytes : Bytes) :
    trim (pre ++ c.b64Encode bytes) = pre ++ c.b64Encode bytes := by
  have hall : ∀ x ∈ pre ++ c.b64Encode bytes, isWhitespace x = false := by
    intro x hx
    rcases List.mem_append.mp hx with hx | hx
    · simpa using List.all_eq_true.mp hpre x hx
    · exact (h.b64Char bytes x hx).1
  exact LocalFiles.trim_self (fun x hx => hall x (List.mem_of_mem_head? hx)) fun x hx => hall x (List.mem_of_mem_getLast? hx)

variable [LinearOrder Url] [LinearOrder Addr]

/-! ## Addresses -/

namespace NodeAddr

/-- An address without ways to reach it. -/
def new (id : NodeId) : NodeAddr NodeId Url Addr := ⟨id, ∅, ∅⟩

/-- A relay is added. -/
def withRelayUrl (addr : NodeAddr NodeId Url Addr) (url : Url) : NodeAddr NodeId Url Addr :=
  { addr with relayUrls := insert url addr.relayUrls }

/-- A direct address is added. -/
def withIpAddr (addr : NodeAddr NodeId Url Addr) (ip : Addr) : NodeAddr NodeId Url Addr :=
  { addr with ipAddrs := insert ip addr.ipAddrs }

end NodeAddr

/-! ## Encoding -/

/-- The full code: JSON with the addresses in their order and the first relay. -/
def encodeTicket (addr : NodeAddr NodeId Url Addr) (secret : Option PairingSecret) :
    Except String Text :=
  let wire : TicketWire :=
    { nid := c.idText addr.id
      a := addr.ipAddrs.sort.map c.addrText
      r := addr.relayUrls.sort.head?.map c.urlText
      s := secret.map (toB64 c) }
  match c.toJson wire with
  | .error e => .error ("ticket encode: " ++ e)
  | .ok json => .ok ("portty1:".toList ++ c.b64Encode json)

/-- The compact code: the key and the secret, for a QR code. -/
def encodeCompactTicket (addr : NodeAddr NodeId Url Addr) (secret : PairingSecret) :
    Except String Text :=
  match ticketBytes secret with
  | none => .error "compact QR requires a 128-bit ticket secret"
  | some ticketSecret => .ok ("portty3:".toList ++ c.b64Encode (c.idBytes addr.id ++ toBytes 16 ticketSecret))

/-! ## Decoding -/

/-- The secret of a code that starts with `portty3:`. -/
def compactSecret (body : Text) : Option PairingSecret :=
  match c.b64Decode body with
  | .error _ => none
  | .ok raw => if raw.length ≠ 48 then none else some (.ticket (ofBytes 16 (raw.drop 32)))

/-- The secret of a code that starts with `portty1:`. -/
def fullSecret (body : Text) : Option PairingSecret :=
  match c.b64Decode body with
  | .error _ => none
  | .ok json =>
    match c.fromJson json with
    | .error _ => none
    | .ok wire => wire.s.bind (fromB64 c)

/-- The secret of a code, read apart from the address. -/
def decodeTicketSecret (s : Text) : Option PairingSecret :=
  let s := trim s
  if byteLen s > maxTicketChars then none
  else
    match stripPrefix "portty3:".toList s with
    | some body => compactSecret c body
    | none => (stripPrefix "portty1:".toList s).bind (fullSecret c)

/-- A body of exactly the expected length, of which the key is taken. -/
def decodeCompact (body : Text) (expectedLen : Nat) : Except String (NodeAddr NodeId Url Addr) :=
  match c.b64Decode body with
  | .error e => .error ("compact b64: " ++ e)
  | .ok raw =>
    if raw.length ≠ expectedLen then
      .error ("compact ticket: expected " ++ toString expectedLen ++ " bytes, got " ++ toString raw.length)
    else
      match c.parseId (c.hexEncode (raw.take 32)) with
      | .error e => .error ("compact NodeId: " ++ e)
      | .ok id => .ok (.new id)

/-- A digit in either case. -/
def isHexDigit (c : Char) : Bool := c.isDigit || ('a' ≤ c && c ≤ 'f') || ('A' ≤ c && c ≤ 'F')

/-- A code that is the key itself. -/
def decodeBare (s : Text) : Except String (NodeAddr NodeId Url Addr) :=
  if byteLen s = 64 ∧ s.all isHexDigit = true then
    match c.parseId (s.map Char.toLower) with
    | .error e => .error ("bare NodeId: " ++ e)
    | .ok id => .ok (.new id)
  else .error "invalid pairing code (expected `portty1:...`, `portty3:...`, or 64 hex NodeId)"

/-- The address in a wire, its direct addresses up to the cap. -/
def readWire (wire : TicketWire) : Except String (NodeAddr NodeId Url Addr) :=
  match c.parseId wire.nid with
  | .error e => .error ("ticket node_id: " ++ e)
  | .ok id =>
    let ips := (wire.a.take maxTicketAddrs).filterMap c.parseAddr
    match wire.r with
    | none => .ok (ips.foldl .withIpAddr (.new id))
    | some relay =>
      match c.parseUrl relay with
      | .error e => .error ("ticket relay: " ++ e)
      | .ok url => .ok (ips.foldl .withIpAddr ((NodeAddr.new id).withRelayUrl url))

/-- The JSON is read, and its fields checked. -/
def decodeFull (body : Text) : Except String (NodeAddr NodeId Url Addr) :=
  match c.b64Decode body with
  | .error e => .error ("ticket b64: " ++ e)
  | .ok json =>
    match c.fromJson json with
    | .error e => .error ("ticket json: " ++ e)
    | .ok wire => readWire c wire

/-- The body of a compact code, and how many bytes it has. -/
def compactBody (s : Text) : Option (Text × Nat) :=
  ((stripPrefix "portty3:".toList s).map (·, 48)).or ((stripPrefix "portty2:".toList s).map (·, 36))

/-- The address of a code, whatever its kind. -/
def decodeTicket (s : Text) : Except String (NodeAddr NodeId Url Addr) :=
  let s := trim s
  if byteLen s > maxTicketChars then
    .error ("pairing code is too long (" ++ toString (byteLen s) ++ " chars, limit " ++ toString maxTicketChars ++
      ") - paste just the code, not the surrounding text")
  else
    match compactBody s with
    | some (body, expectedLen) => decodeCompact c body expectedLen
    | none =>
      match stripPrefix "portty1:".toList s with
      | none => decodeBare c s
      | some body => decodeFull c body

/-! ## Results -/

/-- What a full ticket carries: the first relay URL, and the direct addresses up to the cap. -/
def carried (unlabelled : Addr → Addr) (addr : NodeAddr NodeId Url Addr) :
    NodeAddr NodeId Url Addr :=
  { id := addr.id
    relayUrls := addr.relayUrls.sort.head?.toFinset
    ipAddrs := ((addr.ipAddrs.sort.take maxTicketAddrs).map unlabelled).toFinset }

/-- The forms that a code can have. -/
inductive Kind where
  | full
  | compact
  | legacy
  | bare
  deriving DecidableEq

/-- The decoder of the kind takes the code. -/
def AcceptedAs (s : Text) (addr : NodeAddr NodeId Url Addr) : Kind → Prop
  | .full => ∃ body, trim s = "portty1:".toList ++ body ∧ decodeFull c body = .ok addr
  | .compact => ∃ body, trim s = "portty3:".toList ++ body ∧ decodeCompact c body 48 = .ok addr
  | .legacy => ∃ body, trim s = "portty2:".toList ++ body ∧ decodeCompact c body 36 = .ok addr
  | .bare => decodeBare c (trim s) = .ok addr

/-! ## Facts about codes -/

variable {c} {s body : Text} {addr : NodeAddr NodeId Url Addr} {unlabelled : Addr → Addr}

theorem byteLen_eq_length {text : Text} (h : ∀ x ∈ text, x.utf8Size = 1) :
    byteLen text = text.length := by
  induction text with
  | nil => rfl
  | cons x text ih =>
    obtain ⟨hx, htext⟩ := List.forall_mem_cons.mp h
    rw [byteLen_cons, ih htext, hx, List.length_cons, Nat.add_comm]

theorem compactBody_full (body : Text) : compactBody ("portty1:".toList ++ body) = none := by
  simp [compactBody, stripPrefix]

theorem compactBody_compact (body : Text) :
    compactBody ("portty3:".toList ++ body) = some (body, 48) := by
  rw [compactBody, stripPrefix_eq.mpr rfl]
  rfl

theorem compactBody_legacy (body : Text) :
    compactBody ("portty2:".toList ++ body) = some (body, 36) := by
  have hnone : stripPrefix "portty3:".toList ("portty2:".toList ++ body) = none := by
    simp [stripPrefix]
  rw [compactBody, stripPrefix_eq.mpr rfl, hnone]
  rfl

theorem compactBody_cases {found : Text × Nat} (h : compactBody s = some found) :
    s = "portty3:".toList ++ found.1 ∧ found.2 = 48 ∨ s = "portty2:".toList ++ found.1 ∧
      found.2 = 36 := by
  rcases Option.or_eq_some_iff.mp h with h | ⟨-, h⟩
  · obtain ⟨body, hbody, rfl⟩ := Option.map_eq_some_iff.mp h
    exact .inl ⟨stripPrefix_eq.mp hbody, rfl⟩
  · obtain ⟨body, hbody, rfl⟩ := Option.map_eq_some_iff.mp h
    exact .inr ⟨stripPrefix_eq.mp hbody, rfl⟩

theorem stripPrefix_compact (body : Text) :
    stripPrefix "portty3:".toList ("portty1:".toList ++ body) = none := by
  simp [stripPrefix]

/-! ## What comes back from a ticket -/

omit [LinearOrder Url] in
theorem foldl_withIpAddr (ips : List Addr) (addr : NodeAddr NodeId Url Addr) :
    ips.foldl .withIpAddr addr = { addr with ipAddrs := addr.ipAddrs ∪ ips.toFinset } := by
  induction ips generalizing addr with
  | nil => simp
  | cons ip ips ih =>
    rw [List.foldl_cons, ih, NodeAddr.withIpAddr, List.toFinset_cons]
    simp

/-- The wire of an address is read as what a ticket carries. -/
theorem readWire_wire (h : c.Lawful unlabelled) (addr : NodeAddr NodeId Url Addr)
    (s : Option Text) :
    readWire c ⟨c.idText addr.id, addr.ipAddrs.sort.map c.addrText, addr.relayUrls.sort.head?.map c.urlText, s⟩ =
      .ok (carried unlabelled addr) := by
  have hips : ((addr.ipAddrs.sort.map c.addrText).take maxTicketAddrs).filterMap c.parseAddr =
      (addr.ipAddrs.sort.take maxTicketAddrs).map unlabelled := by
    rw [← List.map_take, List.filterMap_map, ← List.filterMap_eq_map]
    congr 1
    exact funext h.addr
  rw [readWire, h.id, carried]
  simp only [hips, foldl_withIpAddr]
  cases addr.relayUrls.sort.head? with
  | none => simp [NodeAddr.new]
  | some url => simp [h.url, NodeAddr.new, NodeAddr.withRelayUrl]

theorem encodeTicket_eq (h : c.Lawful unlabelled) (addr : NodeAddr NodeId Url Addr)
    (secret : Option PairingSecret) :
    ∃ wire json, wire.a = addr.ipAddrs.sort.map c.addrText ∧ c.toJson wire = .ok json ∧
      encodeTicket c addr secret = .ok ("portty1:".toList ++ c.b64Encode json) := by
  obtain ⟨json, hjson, -⟩ := h.json ⟨c.idText addr.id, addr.ipAddrs.sort.map c.addrText,
    addr.relayUrls.sort.head?.map c.urlText, secret.map (toB64 c)⟩
  exact ⟨_, json, rfl, hjson, by rw [encodeTicket, hjson]⟩

theorem decodeTicket_encode (h : c.Lawful unlabelled) (addr : NodeAddr NodeId Url Addr)
    (secret : Option PairingSecret) :
    ∃ ticket, encodeTicket c addr secret = .ok ticket ∧ (byteLen ticket ≤ maxTicketChars →
      decodeTicket c ticket = .ok (carried unlabelled addr) ∧
        decodeTicketSecret c ticket = secret) := by
  obtain ⟨json, hjson, hread⟩ := h.json ⟨c.idText addr.id, addr.ipAddrs.sort.map c.addrText,
    addr.relayUrls.sort.head?.map c.urlText, secret.map (toB64 c)⟩
  refine ⟨"portty1:".toList ++ c.b64Encode json, by rw [encodeTicket, hjson], fun hlen => ?_⟩
  have htrim := trim_code h "portty1:".toList (by decide) json
  have hshort : ¬ byteLen ("portty1:".toList ++ c.b64Encode json) > maxTicketChars :=
    Nat.not_lt.mpr hlen
  constructor
  · rw [decodeTicket, htrim, if_neg hshort, compactBody_full, stripPrefix_eq.mpr rfl]
    simp only [decodeFull, h.b64, hread]
    exact readWire_wire h addr _
  · rw [decodeTicketSecret, htrim, if_neg hshort, stripPrefix_compact, stripPrefix_eq.mpr rfl]
    simp only [Option.bind_some, fullSecret, h.b64, hread]
    cases secret with
    | none => rfl
    | some secret => exact fromB64_toB64 h.b64 secret

theorem decodeTicket_compact (h : c.Lawful unlabelled) (addr : NodeAddr NodeId Url Addr)
    (bytes : BitVec 128) :
    ∃ code, encodeCompactTicket c addr (.ticket bytes) = .ok code ∧
      decodeTicket c code = .ok (.new addr.id) ∧
      decodeTicketSecret c code = some (.ticket bytes) := by
  refine ⟨_, rfl, ?_⟩
  generalize hraw : c.idBytes addr.id ++ toBytes 16 bytes = raw
  have hlength : raw.length = 48 := by rw [← hraw, List.length_append, h.idLength, toBytes_length]
  have hid : raw.take 32 = c.idBytes addr.id := by rw [← hraw, ← h.idLength addr.id, List.take_left]
  have hsecret : raw.drop 32 = toBytes 16 bytes := by
    rw [← hraw, ← h.idLength addr.id, List.drop_left]
  have htrim := trim_code h "portty3:".toList (by decide) raw
  have hshort : ¬ byteLen ("portty3:".toList ++ c.b64Encode raw) > maxTicketChars := by
    have hbytes := byteLen_eq_length fun x hx => (h.b64Char raw x hx).2
    have hpre : byteLen "portty3:".toList = 8 := by decide
    rw [byteLen_append, hbytes, h.b64Length raw hlength, hpre]
    decide
  constructor
  · rw [decodeTicket, htrim, if_neg hshort, compactBody_compact]
    simp only [decodeCompact, h.b64, hlength, hid, h.idHex, ne_eq, not_true_eq_false, if_false]
  · rw [decodeTicketSecret, htrim, if_neg hshort, stripPrefix_eq.mpr rfl]
    simp only [compactSecret, h.b64, hlength, hsecret, ne_eq, not_true_eq_false, if_false]
    exact congrArg some (congrArg PairingSecret.ticket (ofBytes_toBytes 16 bytes))

/-! ## Kinds of codes -/

/-- What a code of the kind starts with. -/
def Kind.start : Kind → Option Text
  | .full => some "portty1:".toList
  | .compact => some "portty3:".toList
  | .legacy => some "portty2:".toList
  | .bare => none

theorem AcceptedAs.starts {kind : Kind} (h : AcceptedAs c s addr kind) :
    ∀ pre ∈ kind.start, pre <+: trim s := by
  intro pre hpre
  cases kind with
  | bare => cases hpre
  | _ =>
    obtain ⟨body, htrim, -⟩ := h
    obtain rfl := Option.some.inj hpre
    exact ⟨body, htrim.symm⟩

/-- A bare node id has no colon. -/
theorem AcceptedAs.bare_digits (h : AcceptedAs c s addr .bare) :
    (trim s).all isHexDigit = true := by
  rw [AcceptedAs, decodeBare] at h
  split_ifs at h with hform
  exact hform.2

theorem Kind.start_injective {kind kind' : Kind} (h : kind.start = kind'.start) : kind = kind' := by
  cases kind <;> cases kind' <;> first | rfl | exact absurd h (by decide)

theorem Kind.start_length {kind : Kind} {pre : Text} (h : pre ∈ kind.start) :
    pre.length = 8 ∧ pre.all isHexDigit = false := by
  cases kind with
  | bare => cases h
  | _ =>
    obtain rfl := Option.some.inj h
    exact ⟨rfl, by decide⟩

/-- A start is not a part of a bare node id. -/
theorem AcceptedAs.not_bare {addr' : NodeAddr NodeId Url Addr} {kind : Kind}
    (h : AcceptedAs c s addr kind)
    (h' : AcceptedAs c s addr' .bare) : kind.start = none := by
  refine Option.eq_none_iff_forall_not_mem.mpr fun pre hpre => ?_
  obtain ⟨rest, hrest⟩ := h.starts pre hpre
  have hdigits := h'.bare_digits
  rw [← hrest, List.all_append, (Kind.start_length hpre).2] at hdigits
  cases hdigits

theorem kind_unique {addr' : NodeAddr NodeId Url Addr} {kind kind' : Kind}
    (h : AcceptedAs c s addr kind)
    (h' : AcceptedAs c s addr' kind') : kind = kind' := by
  refine Kind.start_injective ?_
  cases hstart : kind.start with
  | none =>
    have hbare : kind = .bare := Kind.start_injective hstart
    rw [hbare] at h
    exact (h'.not_bare h).symm
  | some pre =>
    cases hstart' : kind'.start with
    | none =>
      have hbare : kind' = .bare := Kind.start_injective hstart'
      rw [hbare] at h'
      rw [h.not_bare h'] at hstart
      cases hstart
    | some pre' =>
      -- Two starts of one text have the same length.
      have hlen : pre.length = pre'.length :=
        (Kind.start_length hstart).1.trans (Kind.start_length hstart').1.symm
      have hle :=
        List.prefix_of_prefix_length_le (h.starts pre hstart) (h'.starts pre' hstart') hlen.le
      rw [hle.eq_of_length hlen]

/-- A code is of one kind, and is read in one way. -/
theorem acceptedAs_unique {addr' : NodeAddr NodeId Url Addr} {kind kind' : Kind}
    (h : AcceptedAs c s addr kind)
    (h' : AcceptedAs c s addr' kind') : kind = kind' ∧ addr = addr' := by
  obtain rfl := kind_unique h h'
  refine ⟨rfl, ?_⟩
  cases kind with
  | bare => exact Except.ok.inj (h.symm.trans h')
  | _ =>
    obtain ⟨body, htrim, hread⟩ := h
    obtain ⟨body', htrim', hread'⟩ := h'
    obtain rfl := List.append_cancel_left (htrim.symm.trans htrim')
    exact Except.ok.inj (hread.symm.trans hread')

theorem decodeTicket_iff : decodeTicket c s = .ok addr ↔
    byteLen (trim s) ≤ maxTicketChars ∧ ∃ kind, AcceptedAs c s addr kind := by
  rw [decodeTicket]
  by_cases hlong : byteLen (trim s) > maxTicketChars
  · rw [if_pos hlong]
    exact ⟨fun h => (by cases h), fun h => absurd h.1 (Nat.not_le.mpr hlong)⟩
  · rw [if_neg hlong]
    refine Iff.trans ⟨fun h => ?_, ?_⟩ (and_iff_right (Nat.not_lt.mp hlong)).symm
    · cases hcompact : compactBody (trim s) with
      | some found =>
        rw [hcompact] at h
        rcases compactBody_cases hcompact with ⟨htrim, hlen⟩ | ⟨htrim, hlen⟩
        · exact ⟨.compact, found.1, htrim, hlen ▸ h⟩
        · exact ⟨.legacy, found.1, htrim, hlen ▸ h⟩
      | none =>
        rw [hcompact] at h
        cases hfull : stripPrefix "portty1:".toList (trim s) with
        | some body =>
          rw [hfull] at h
          exact ⟨.full, body, stripPrefix_eq.mp hfull, h⟩
        | none =>
          rw [hfull] at h
          exact ⟨.bare, h⟩
    · rintro ⟨kind, h⟩
      cases kind with
      | full =>
        obtain ⟨body, htrim, hread⟩ := h
        rw [htrim, compactBody_full, stripPrefix_eq.mpr rfl]
        exact hread
      | compact =>
        obtain ⟨body, htrim, hread⟩ := h
        rw [htrim, compactBody_compact]
        exact hread
      | legacy =>
        obtain ⟨body, htrim, hread⟩ := h
        rw [htrim, compactBody_legacy]
        exact hread
      | bare =>
        have hnone : ∀ pre : Text, pre.all isHexDigit = false →
            stripPrefix pre (trim s) = none := fun pre hpre => by
          refine Option.eq_none_iff_forall_not_mem.mpr fun body hbody => ?_
          have hdigits := h.bare_digits
          rw [stripPrefix_eq.mp hbody, List.all_append, hpre] at hdigits
          cases hdigits
        rw [compactBody, hnone "portty3:".toList (by decide), hnone "portty2:".toList (by decide),
          hnone "portty1:".toList (by decide)]
        exact h

/-- No code carries two relay URLs. -/
theorem decodeTicket_relays (h : decodeTicket c s = .ok addr) : addr.relayUrls.card ≤ 1 := by
  have hnew : ∀ id : NodeId, (NodeAddr.new id : NodeAddr NodeId Url Addr).relayUrls.card ≤
      1 := fun _ => by
    rw [NodeAddr.new, Finset.card_empty]
    exact Nat.zero_le 1
  have hcompact : ∀ {body : Text} {n : Nat}, decodeCompact c body n = .ok addr →
      addr.relayUrls.card ≤ 1 := by
    intro body n h
    rw [decodeCompact] at h
    split at h
    · cases h
    · split_ifs at h
      split at h
      · cases h
      · rw [← Except.ok.inj h]
        exact hnew _
  obtain ⟨-, kind, hkind⟩ := decodeTicket_iff.mp h
  cases kind with
  | compact =>
    obtain ⟨body, -, hread⟩ := hkind
    exact hcompact hread
  | legacy =>
    obtain ⟨body, -, hread⟩ := hkind
    exact hcompact hread
  | bare =>
    rw [AcceptedAs, decodeBare] at hkind
    split_ifs at hkind
    split at hkind
    · cases hkind
    · rw [← Except.ok.inj hkind]
      exact hnew _
  | full =>
    obtain ⟨body, -, hread⟩ := hkind
    rw [decodeFull] at hread
    split at hread
    · cases hread
    · split at hread
      · cases hread
      · rw [readWire] at hread
        split at hread
        · cases hread
        · simp only [foldl_withIpAddr] at hread
          split at hread
          next id _ _ _ =>
            rw [← Except.ok.inj hread]
            exact hnew id
          · split at hread
            · cases hread
            · rw [← Except.ok.inj hread]
              exact Finset.card_insert_le _ _

/-- The round trips of both kinds of tickets, and the kinds of all codes. -/
theorem ticket_round_trip (h : c.Lawful unlabelled) (addr : NodeAddr NodeId Url Addr) :
    (∀ secret, ∃ ticket, encodeTicket c addr secret = .ok ticket ∧ (byteLen ticket ≤ maxTicketChars →
      decodeTicket c ticket = .ok (carried unlabelled addr) ∧
        decodeTicketSecret c ticket = secret)) ∧
    (∀ bytes, ∃ code, encodeCompactTicket c addr (.ticket bytes) = .ok code ∧ decodeTicket c code = .ok (.new addr.id) ∧
      decodeTicketSecret c code = some (.ticket bytes)) ∧
    ∀ s read, decodeTicket c s = .ok read → ∃ kind, AcceptedAs c s read kind ∧
      ∀ kind' read', AcceptedAs c s read' kind' → kind' = kind ∧ read' = read := by
  refine ⟨decodeTicket_encode h addr, decodeTicket_compact h addr, fun s read hread => ?_⟩
  obtain ⟨-, kind, hkind⟩ := decodeTicket_iff.mp hread
  exact ⟨kind, hkind, fun _ _ h' => acceptedAs_unique h' hkind⟩

end Code

/-! ## A codec with one node id -/

/-- The base point of Ed25519, which is a valid key. -/
def keyBytes : Bytes := 0x58 :: List.replicate 31 0x66

/-- A field that can be absent. -/
def optionText : Option Text → Text
  | none => "null".toList
  | some text => Quote.quote (String.ofList text)

/-- The wire as `serde_json` writes it. -/
def wireText (wire : TicketWire) : Text :=
  "\x7b\"nid\":".toList ++ (Quote.quote (String.ofList wire.nid) ++ (",\"a\":".toList ++
    (Quote.array (wire.a.map String.ofList) ++ (",\"r\":".toList ++ (optionText wire.r ++ (",\"s\":".toList ++
      (optionText wire.s ++ "\x7d".toList)))))))

theorem optionText_append_inj {x y : Option Text} {xs ys : Text}
    (h : optionText x ++ xs = optionText y ++ ys) :
    x = y ∧ xs = ys := by
  cases x with
  | none =>
    cases y with
    | none => exact ⟨rfl, List.append_cancel_left h⟩
    | some text => simp [optionText, Quote.quote] at h
  | some text =>
    cases y with
    | none => simp [optionText, Quote.quote] at h
    | some text' =>
      obtain ⟨htext, hxs⟩ := Quote.quote_append_inj h
      exact ⟨congrArg some (String.ofList_injective htext), hxs⟩

theorem wireText_injective {wire wire' : TicketWire} (h : wireText wire = wireText wire') :
    wire = wire' := by
  unfold wireText at h
  have hwire := List.append_cancel_left h
  obtain ⟨hnid, htail⟩ := Quote.quote_append_inj hwire
  have hwire := List.append_cancel_left htail
  obtain ⟨ha, htail⟩ := Quote.array_append_inj hwire
  have hwire := List.append_cancel_left htail
  obtain ⟨hr, htail⟩ := optionText_append_inj hwire
  have hwire := List.append_cancel_left htail
  obtain ⟨hs, -⟩ := optionText_append_inj hwire
  have hnid : wire.nid = wire'.nid := String.ofList_injective hnid
  have ha : wire.a = wire'.a := List.map_injective_iff.mpr (fun _ _ => String.ofList_injective) ha
  cases wire
  cases wire'
  exact TicketWire.mk.injEq .. ▸ ⟨hnid, ha, hr, hs⟩

/-- Lower case digits. -/
def hexText (bytes : Bytes) : Text :=
  bytes.flatMap fun b => [Nat.digitChar (b.toNat / 16), Nat.digitChar (b.toNat % 16)]

/-- The one key of the example. -/
def parseKey (text : Text) : Except String Unit :=
  if text = hexText keyBytes then .ok () else .error "invalid"

theorem parseKey_key : parseKey (hexText keyBytes) = .ok () := if_pos rfl

/-- The two relays of the example. -/
def relayText (url : Fin 2) : Text :=
  if url = 0 then "http://127.0.0.1:3340/".toList else "http://127.0.0.1:3341/".toList

/-- The inverse of `relayText`. -/
def parseRelay (text : Text) : Except String (Fin 2) :=
  if text = relayText 0 then .ok 0 else if text = relayText 1 then .ok 1 else .error "invalid"

/-- A port of four digits. -/
def port (n : Nat) : Text :=
  ['1', Nat.digitChar (n / 100), Nat.digitChar (n / 10 % 10), Nat.digitChar (n % 10)]

/-- A port from 1000 on. -/
def directText (addr : Fin 256) : Text := "127.0.0.1:".toList ++ port addr

/-- The inverse of an address with such a port. -/
def parseDirect (text : Text) : Option (Fin 256) :=
  match stripPrefix "127.0.0.1:".toList text with
  | some [_, x, y, z] => some (Fin.ofNat 256 ((x.toNat - 48) * 100 + (y.toNat - 48) * 10 + (z.toNat - 48)))
  | _ => none

theorem parseDirect_directText (addr : Fin 256) : parseDirect (directText addr) = some addr := by
  have hdigit : ∀ d < 10, (Nat.digitChar d).toNat - 48 = d := by decide
  have haddr := addr.isLt
  have hport : stripPrefix "127.0.0.1:".toList (directText addr) = some (port addr) :=
    stripPrefix_eq.mpr rfl
  rw [parseDirect, hport]
  simp only [port, hdigit _ (by omega : addr.val / 100 < 10),
    hdigit _ (by omega : addr.val / 10 % 10 < 10), hdigit _ (by omega : addr.val % 10 < 10)]
  have hdiv : addr.val / 10 / 10 = addr.val / 100 := Nat.div_div_eq_div_mul ..
  refine congrArg some (Fin.ext ?_)
  rw [Fin.val_ofNat]
  omega

open Classical in
/-- What was written is read back. -/
noncomputable def readWireText (bytes : Bytes) : Except String TicketWire :=
  if h : ∃ wire, Utf8.encode (wireText wire) = bytes then .ok h.choose else .error "invalid"

theorem readWireText_encode (wire : TicketWire) :
    readWireText (Utf8.encode (wireText wire)) = .ok wire := by
  have hex : ∃ wire', Utf8.encode (wireText wire') = Utf8.encode (wireText wire) := ⟨wire, rfl⟩
  rw [readWireText, dif_pos hex]
  exact congrArg Except.ok (wireText_injective (Utf8.encode_injective hex.choose_spec))

/-- One node id, two relays, and the direct addresses of one computer. -/
noncomputable def keyCodec : Codec Unit (Fin 2) (Fin 256) where
  b64Encode := Base64.encode
  b64Decode text := (Base64.decode text).elim (.error "invalid") .ok
  toJson wire := .ok (Utf8.encode (wireText wire))
  fromJson := readWireText
  hexEncode := hexText
  idBytes _ := keyBytes
  idText _ := hexText keyBytes
  parseId := parseKey
  urlText := relayText
  parseUrl := parseRelay
  addrText := directText
  parseAddr := parseDirect

theorem keyCodec_lawful : keyCodec.Lawful id where
  b64 bytes := by
    have h := Base64.decode_encode bytes
    simp only [keyCodec, h, Option.elim_some]
  b64Char bytes x hx := by
    have hall : Base64.digits.all (fun y => !isWhitespace y && y.utf8Size == 1) = true := by decide
    simpa using List.all_eq_true.mp hall x (Base64.mem_encode hx)
  b64Length bytes h := by
    have hlen := Base64.length_encode bytes
    rw [h] at hlen
    exact hlen
  json wire := ⟨_, rfl, readWireText_encode wire⟩
  idLength _ := rfl
  id _ := parseKey_key
  idHex _ := parseKey_key
  url := by decide
  addr := parseDirect_directText

/-- A relay and a direct address. -/
def oneRelay : NodeAddr Unit (Fin 2) (Fin 256) := ⟨(), {0}, {1}⟩

theorem ticket_round_trip_key :
    ∃ ticket, encodeTicket keyCodec oneRelay (some (.ticket 7)) = .ok ticket ∧
      decodeTicket keyCodec ticket = .ok (carried id oneRelay) ∧
        decodeTicketSecret keyCodec ticket = some (.ticket 7) := by
  obtain ⟨ticket, hticket, hread⟩ :=
    (ticket_round_trip keyCodec_lawful oneRelay).1 (some (.ticket 7))
  refine ⟨ticket, hticket, hread ?_⟩
  rw [encodeTicket, oneRelay] at hticket
  simp only [Finset.sort_singleton] at hticket
  rw [← Except.ok.inj hticket]
  decide +kernel

/-- An address with two relays, of which a code has only one. -/
def twoRelays : NodeAddr Unit (Fin 2) (Fin 256) := ⟨(), {0, 1}, ∅⟩

/-- An address with more direct addresses than a code may have. -/
def manyAddrs : NodeAddr Unit (Fin 2) (Fin 256) := ⟨(), ∅, Finset.univ⟩

/-- Each direct address has its part of the ticket. -/
theorem addrs_le_wireText {wire : TicketWire} {k : Nat} (h : ∀ text ∈ wire.a, k ≤ text.length) :
    wire.a.length * k ≤ (wireText wire).length := by
  have harray : wire.a.length * k ≤ (Quote.array (wire.a.map String.ofList)).length := by
    rw [← List.length_map (f := String.ofList)]
    refine Quote.le_length_array fun s hs => ?_
    obtain ⟨text, htext, rfl⟩ := List.mem_map.mp hs
    rw [String.toList_ofList]
    exact h text htext
  unfold wireText
  simp only [List.length_append]
  omega

/-- A second relay URL is not in the ticket, and the decoder refuses the ticket of a computer with
many addresses. -/
theorem ticket_round_trip_relays : keyCodec.Lawful id ∧
    (∃ ticket, encodeTicket keyCodec twoRelays none = .ok ticket ∧
      ∀ read, decodeTicket keyCodec ticket = .ok read → read.relayUrls ≠ twoRelays.relayUrls) ∧
    ∃ ticket, encodeTicket keyCodec manyAddrs none = .ok ticket ∧ ∀ read,
      decodeTicket keyCodec ticket ≠ .ok read := by
  refine ⟨keyCodec_lawful, ?_, ?_⟩
  · obtain ⟨ticket, hticket, -⟩ := decodeTicket_encode keyCodec_lawful twoRelays none
    refine ⟨ticket, hticket, fun read hread hrelays => ?_⟩
    have hcard := decodeTicket_relays hread
    rw [hrelays] at hcard
    exact absurd hcard (by decide)
  · obtain ⟨wire, json, ha, hjson, hticket⟩ := encodeTicket_eq keyCodec_lawful manyAddrs none
    obtain rfl : Utf8.encode (wireText wire) = json := Except.ok.inj hjson
    refine ⟨_, hticket, fun read hread => ?_⟩
    have haddrs : wire.a.length * 14 ≤ (wireText wire).length := by
      refine addrs_le_wireText fun text htext => ?_
      rw [ha] at htext
      obtain ⟨addr, -, rfl⟩ := List.mem_map.mp htext
      exact Nat.le_refl 14
    have hcount : wire.a.length = 256 := by
      rw [ha, List.length_map, Finset.length_sort]
      exact Finset.card_fin 256
    have hbytes : byteLen (keyCodec.b64Encode (Utf8.encode (wireText wire))) = _ :=
      byteLen_eq_length fun x hx => (keyCodec_lawful.b64Char _ x hx).2
    have hlength : (keyCodec.b64Encode (Utf8.encode (wireText wire))).length = _ :=
      Base64.length_encode _
    have hencode := Utf8.length_le_encode (wireText wire)
    have hshort := (decodeTicket_iff.mp hread).1
    rw [trim_code keyCodec_lawful "portty1:".toList (by decide), byteLen_append, hbytes, hlength,
      maxTicketChars] at hshort
    omega

end Portty.Ticket
