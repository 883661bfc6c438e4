import Blackstone.Bank.Text

/-!
# Network messages

`message.cpp`. `serialize` writes the type of a message as one raw byte, and `deserialize`
reads a decimal number in its place. No message survives (`deserialize_serialize_ne`): the
types of the program are refused (`deserialize_serialize_of_named`), and a type whose byte
happens to be a digit comes back as another type (`deserialize_serialize`).
-/

namespace Blackstone.Bank

open Delimited

/-- `MessageType`, an enumeration over `uint8_t`. -/
structure MessageType where
  code : UInt8
deriving DecidableEq

/-- The sixteen message types, from `PING` to `ERROR`. -/
def MessageType.named : List MessageType :=
  (List.range 16).map (fun i => ⟨UInt8.ofNat (i + 1)⟩)

/-- `MessageType::PING`. -/
def MessageType.ping : MessageType := ⟨0x01⟩

/-- `NetworkMessage`. -/
structure NetworkMessage where
  type : MessageType
  senderId : Str
  recipientId : Str
  payload : Str
  sequence : UInt64
  timestamp : UInt64
  signature : Str
deriving DecidableEq

/-- `NetworkMessage::serialize`. -/
def NetworkMessage.serialize (m : NetworkMessage) : Str :=
  join bar [[m.type.code], m.senderId, m.recipientId, m.payload, decimal m.sequence.toNat,
    decimal m.timestamp.toNat, m.signature]

/-- `NetworkMessage::deserialize`. -/
def NetworkMessage.deserialize (data : Str) : Option NetworkMessage :=
  let typeStr := getline bar data
  let senderId := getline bar typeStr.2
  let recipientId := getline bar senderId.2
  let payload := getline bar recipientId.2
  let seqStr := getline bar payload.2
  let tsStr := getline bar seqStr.2
  let signature := getline bar tsStr.2
  match stoi typeStr.1, stoull seqStr.1, stoull tsStr.1 with
  | some type, some sequence, some timestamp =>
    some
      { type := ⟨UInt8.ofInt type.toInt⟩
        senderId := senderId.1
        recipientId := recipientId.1
        payload := payload.1
        sequence := sequence
        timestamp := timestamp
        signature := signature.1 }
  | _, _, _ => none

/-- The string `data` that is signed. -/
def NetworkMessage.data (m : NetworkMessage) : Str :=
  decimal m.type.code.toNat ++ m.senderId ++ m.recipientId ++ m.payload ++
    decimal m.sequence.toNat ++ decimal m.timestamp.toNat

/-- `NetworkMessage::sign`. -/
def NetworkMessage.sign (m : NetworkMessage) (privateKey : Str) : NetworkMessage :=
  { m with signature := sha1Hmac privateKey m.data }

/-- `NetworkMessage::verifySignature`. -/
def NetworkMessage.verifySignature (m : NetworkMessage) (publicKey : Str) : Bool :=
  decide (sha1Hmac publicKey m.data = m.signature)

@[simp] theorem NetworkMessage.verifySignature_sign (m : NetworkMessage) (key : Str) :
    (m.sign key).verifySignature key = true :=
  decide_eq_true rfl

/-! ## The type byte -/

/-- A byte is not read as its own value: it is refused, or it is a digit and read as that
digit. -/
theorem ofInt_stoi_singleton_ne (b : UInt8) :
    (stoi [b]).map (fun code => UInt8.ofInt code.toInt) ≠ some b := by
  have hbyte : ∀ i : Fin 256, (stoi [UInt8.ofFin i]).map (fun code => UInt8.ofInt code.toInt) ≠
      some (UInt8.ofFin i) := by
    decide +kernel
  exact hbyte b.toFin

/-- What the reader finds where the type should be. -/
theorem getline_serialize (m : NetworkMessage) :
    (getline bar m.serialize).1 = if m.type.code = bar then [] else [m.type.code] := by
  rw [NetworkMessage.serialize]
  split
  · rename_i heq
    rw [heq]
    rfl
  · rename_i hne
    show (getline bar ([m.type.code] ++ bar :: _)).1 = _
    rw [getline_append_cons]
    rwa [List.mem_singleton, eq_comm]

theorem type_of_deserialize {data : Str} {m : NetworkMessage}
    (h : NetworkMessage.deserialize data = some m) :
    (stoi (getline bar data).1).map (fun code => UInt8.ofInt code.toInt) = some m.type.code := by
  simp only [NetworkMessage.deserialize] at h
  split at h
  · rename_i heq _ _
    rw [heq, ← Option.some.inj h]
    rfl
  · cases h

/-- No message is read back as it was written. -/
theorem deserialize_serialize_ne (m : NetworkMessage) :
    NetworkMessage.deserialize m.serialize ≠ some m := by
  intro h
  have htype := type_of_deserialize h
  rw [getline_serialize] at htype
  split at htype
  · cases htype
  · exact ofInt_stoi_singleton_ne m.type.code htype

/-- A message of type `PING`. -/
theorem deserialize_serialize_ping :
    NetworkMessage.deserialize (NetworkMessage.serialize
      { type := MessageType.ping
        senderId := ascii "Alice"
        recipientId := ascii "Bob"
        payload := ascii "hello"
        sequence := 1
        timestamp := 2
        signature := [] }) = none := by
  decide +kernel

/-! ## What the reader makes of a message -/

/-- The strings of a message are free of delimiters. -/
structure NetworkMessage.BarFree (m : NetworkMessage) : Prop where
  senderId : bar ∉ m.senderId
  recipientId : bar ∉ m.recipientId
  payload : bar ∉ m.payload
  signature : bar ∉ m.signature

/-- Apart from the type, a message is read back as it was written. -/
theorem deserialize_serialize {m : NetworkMessage} (h : m.BarFree) (htype : m.type.code ≠ bar) :
    NetworkMessage.deserialize m.serialize =
      (stoi [m.type.code]).map (fun code => { m with type := ⟨UInt8.ofInt code.toInt⟩ }) := by
  have hcode : bar ∉ [m.type.code] := by rwa [List.mem_singleton, eq_comm]
  simp only [NetworkMessage.deserialize, NetworkMessage.serialize, join,
    getline_append_cons hcode, getline_append_cons h.senderId, getline_append_cons h.recipientId,
    getline_append_cons h.payload, getline_append_cons (bar_not_mem_decimal _),
    getline_all h.signature, stoull_decimal]
  cases stoi [m.type.code] <;> rfl

/-- A message of one of the types of the program makes the reader throw. -/
theorem deserialize_serialize_of_named {m : NetworkMessage} (h : m.type ∈ MessageType.named) :
    NetworkMessage.deserialize m.serialize = none := by
  have hcodes : ∀ type ∈ MessageType.named,
      stoi (if type.code = bar then [] else [type.code]) = none := by
    decide +kernel
  have hnone := hcodes m.type h
  rw [← getline_serialize] at hnone
  simp only [NetworkMessage.deserialize, hnone]

end Blackstone.Bank
