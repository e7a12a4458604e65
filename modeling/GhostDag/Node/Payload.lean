import GhostDag.Cbor.Access
import GhostDag.Node.Handlers

/-!
# GhostDag.Node.Payload

The payloads of messages (`node.cc`): every message is an object with a member
`msg` for its kind, and travels as CBOR.

A node reads from a payload the message that was sent (`readPayload_encode`),
so that `Message` may stand for the bytes.  The messages of Graphene are left
out.
-/

namespace GhostDag

open BasicJson (text ofMembers)

/-- `enum Messages`. -/
inductive Messages
  | noMessage
  | ping
  | pong
  | reqHeaders
  | blockHeaders
  | invRelayBlock
  | reqRelayBlock
  | block
  | grapheneBlock
  | grapheneRecoveryRequest
  | grapheneRecoveryResponse
  | invTransactions
  | reqTransactions
  | transactions
  deriving DecidableEq

namespace Messages

def all : List Messages :=
  [noMessage, ping, pong, reqHeaders, blockHeaders, invRelayBlock, reqRelayBlock, block,
    grapheneBlock, grapheneRecoveryRequest, grapheneRecoveryResponse, invTransactions,
    reqTransactions, transactions]

/-- The number of an enumerator. -/
def value (type : Messages) : Nat := all.idxOf type

/-- `(enum Messages)msg_data`, if it is an enumerator. -/
def ofInt (n : Int) : Option Messages := all.find? fun type => type.value = n

theorem ofInt_value (type : Messages) : ofInt type.value = some type := by
  cases type <;> rfl

end Messages

/-! ## block hashes -/

/-- `std::to_string`. -/
def toDecimal (n : Nat) : Bytes := (Nat.toDigits 10 n).map fun c => .ofNat c.toNat

/-- `isspace`. -/
def isSpace (b : UInt8) : Bool := b = 0x20 ∨ 0x09 ≤ b ∧ b ≤ 0x0D

def isDigit (b : UInt8) : Bool := 0x30 ≤ b ∧ b ≤ 0x39

/-- The sign of a number, if there is one: whether it is a minus, and what
follows. -/
def readSign : Bytes → Bool × Bytes
  | 0x2B :: s => (false, s)
  | 0x2D :: s => (true, s)
  | s => (false, s)

/-- The number that decimal digits stand for. -/
def ofDecimal (digits : Bytes) : Nat := digits.foldl (fun n b => 10 * n + (b.toNat - 0x30)) 0

/-- `std::stoul`: blanks, a sign, digits, and anything behind them.  There
have to be digits, and the number has to fit; a minus negates it modulo
`2 ^ 64`. -/
def stoul (s : Bytes) : Option Nat :=
  let (negative, s) := readSign (s.dropWhile isSpace)
  let digits := s.takeWhile isDigit
  if digits = [] ∨ 2 ^ 64 ≤ ofDecimal digits then none
  else some (if negative then (2 ^ 64 - ofDecimal digits) % 2 ^ 64 else ofDecimal digits)

/-- The id whose decimal form a string is.  `HandleInvRelayBlock` keeps its
entries under the string, the model under the id; a string of any other form
has no counterpart. -/
def idOfHash (s : Bytes) : Option Nat := do
  let id ← stoul s
  if toDecimal id = s then return id else none

theorem isSpace_of_isDigit {b : UInt8} (h : isDigit b = true) : isSpace b = false := by
  simp only [isDigit, decide_eq_true_eq, UInt8.le_iff_toNat_le, UInt8.reduceToNat] at h
  simp only [isSpace, decide_eq_false_iff_not, ← UInt8.toNat_inj, UInt8.le_iff_toNat_le,
    UInt8.reduceToNat]
  omega

theorem isDigit_toDecimal (n : ℕ) : ∀ b ∈ toDecimal n, isDigit b = true := by
  intro b hb
  obtain ⟨c, hc, rfl⟩ := List.mem_map.mp hb
  have hdigit := Nat.isDigit_of_mem_toDigits (by decide) (by decide) hc
  rw [Char.isDigit, Bool.and_eq_true, decide_eq_true_eq, decide_eq_true_eq] at hdigit
  have hle : 48 ≤ c.toNat ∧ c.toNat ≤ 57 := hdigit
  simp only [isDigit, decide_eq_true_eq, UInt8.le_iff_toNat_le, UInt8.toNat_ofNat',
    UInt8.reduceToNat]
  omega

theorem toDecimal_ne_nil (n : ℕ) : toDecimal n ≠ [] :=
  fun h => Nat.toDigits_ne_nil (List.map_eq_nil_iff.mp h)

theorem ofDecimal_toDecimal (n : ℕ) : ofDecimal (toDecimal n) = n := by
  have hvalue : ∀ (l : List Char), (∀ c ∈ l, c.isDigit = true) → ∀ k,
      (l.map fun c => UInt8.ofNat c.toNat).foldl (fun n b => 10 * n + (b.toNat - 0x30)) k =
        Nat.ofDigitChars 10 l k := by
    intro l
    induction l with
    | nil => exact fun _ _ => rfl
    | cons c l ih =>
        intro hl k
        obtain ⟨hc, hl⟩ := List.forall_mem_cons.mp hl
        rw [Char.isDigit, Bool.and_eq_true, decide_eq_true_eq, decide_eq_true_eq] at hc
        have hle : 48 ≤ c.toNat ∧ c.toNat ≤ 57 := hc
        have hbyte : (UInt8.ofNat c.toNat).toNat = c.toNat := by
          rw [UInt8.toNat_ofNat']
          omega
        rw [List.map_cons, List.foldl_cons, hbyte, ih hl]
        rfl
  have hdigits : ∀ c ∈ Nat.toDigits 10 n, c.isDigit = true := fun c hc =>
    Nat.isDigit_of_mem_toDigits (by decide) (by decide) hc
  exact (hvalue _ hdigits 0).trans Nat.ofDigitChars_ten_toDigits

/-- **A number is read back from its decimal form.** -/
theorem stoul_toDecimal {n : ℕ} (h : n < 2 ^ 64) : stoul (toDecimal n) = some n := by
  have hdigits := isDigit_toDecimal n
  obtain ⟨b, s, hs⟩ := List.exists_cons_of_ne_nil (toDecimal_ne_nil n)
  have hb : isDigit b = true := hdigits b (hs ▸ List.mem_cons_self)
  have hdrop : (toDecimal n).dropWhile isSpace = toDecimal n := by
    rw [hs, List.dropWhile_cons_of_neg (by rw [isSpace_of_isDigit hb]; exact Bool.false_ne_true)]
  have hsign : readSign (toDecimal n) = (false, toDecimal n) := by
    rw [hs, readSign]
    · intro s' heq
      exact absurd ((List.cons.inj heq).1 ▸ hb) (by decide)
    · intro s' heq
      exact absurd ((List.cons.inj heq).1 ▸ hb) (by decide)
  have htake : (toDecimal n).takeWhile isDigit = toDecimal n := List.takeWhile_eq_self_iff.mpr hdigits
  have hfits : ¬ (toDecimal n = [] ∨ 2 ^ 64 ≤ n) := not_or.mpr ⟨toDecimal_ne_nil n, h.not_ge⟩
  simp only [stoul, hdrop, hsign, htake, ofDecimal_toDecimal, if_neg hfits]
  rfl

theorem idOfHash_toDecimal {n : ℕ} (h : n < 2 ^ 64) : idOfHash (toDecimal n) = some n := by
  rw [idOfHash, stoul_toDecimal h]
  exact if_pos rfl

/-! ## messages as objects -/

/-- A number of an unsigned type. -/
def number (n : Nat) : BasicJson := .numberUnsigned (.ofNat n)

/-- What a loop over a member of an object collects. -/
def collect {α : Type} (key : String) (read : BasicJson → Option α) (j : BasicJson) :
    Option (List α) :=
  match j.member key with
  | some member => member.elements.mapM read
  | none => some []

/-- A transaction as a message has it. -/
def Transaction.toJson (tx : Transaction) : BasicJson := ofMembers [
  (text "tx_id", number tx.txId),
  (text "size_bytes", number tx.sizeBytes),
  (text "fee", number tx.fee)]

/-- A transaction from a message. -/
def Transaction.ofJson (j : BasicJson) : Option Transaction := do
  let txId ← j.value BasicJson.getUInt64 "tx_id" 0
  let sizeBytes ← j.value BasicJson.getUInt32 "size_bytes" 522
  let fee ← j.value BasicJson.getUInt32 "fee" 0
  return { txId := txId.toNat, sizeBytes := sizeBytes.toNat, fee := fee.toNat }

/-- The object `block`. -/
def WireBlock.toJson (w : WireBlock) : BasicJson := ofMembers [
  (text "block_id", number w.blockId),
  (text "miner_id", number w.minerId),
  (text "time_created", .numberFloat (.ofNat (BinaryFormat.double.ofRat w.timeCreated))),
  (text "parent_hashes", .array (w.parentHashes.map number)),
  (text "transactions", .array (w.transactions.map Transaction.toJson))]

/-- The block of a message. -/
def WireBlock.ofJson (j : BasicJson) : Option WireBlock := do
  let blockId ← j.value BasicJson.getUInt64 "block_id" 0
  let minerId ← j.value BasicJson.getUInt64 "miner_id" 0
  let timeCreated ← j.value BasicJson.getDouble "time_created" 0
  let parentHashes ← collect "parent_hashes" BasicJson.getUInt64 j
  let transactions ← collect "transactions" Transaction.ofJson j
  return {
    blockId := blockId.toNat
    minerId := minerId.toNat
    timeCreated
    parentHashes := parentHashes.map UInt64.toNat
    transactions }

namespace Message

def type : Message → Messages
  | .invRelayBlock _ => .invRelayBlock
  | .reqRelayBlock _ => .reqRelayBlock
  | .block _ => .block
  | .invTransactions _ => .invTransactions
  | .reqTransactions _ => .reqTransactions
  | .transactions _ => .transactions

/-- The members that are assigned before `msg`. -/
def members : Message → List (Bytes × BasicJson)
  | .invRelayBlock blockHash | .reqRelayBlock blockHash =>
      [(text "block_hash", .string (toDecimal blockHash))]
  | .block w => [(text "block", w.toJson)]
  | .invTransactions txHashes | .reqTransactions txHashes =>
      [(text "tx_hashes", .array (txHashes.map number))]
  | .transactions txs => [(text "transactions", .array (txs.map Transaction.toJson))]

/-- The payload that `SendMessage` completes. -/
def toJson (m : Message) : BasicJson :=
  ofMembers (m.members ++ [(text "msg", number m.type.value)])

/-- `EncodePayload`. -/
def encode (m : Message) : Bytes := m.toJson.toCbor

/-- The member `tx_hashes`. -/
def txHashes (data : BasicJson) : Option (List Nat) :=
  match data.member "tx_hashes" with
  | some member => member.getUInt64s.map fun ids => ids.map UInt64.toNat
  | none => some []

/-- What `ProcessMessage` takes out of a payload; the inner option is empty if
it calls no handler. -/
def ofJson (data : BasicJson) : Option (Option Message) := do
  let msg ← data.value BasicJson.getInt "msg" 0
  match Messages.ofInt msg.toInt with
  | some .invRelayBlock =>
      match data.member "block_hash" with
      | some blockHash => return some (.invRelayBlock (← idOfHash (← blockHash.getString)))
      | none => return none
  | some .reqRelayBlock =>
      match data.member "block_hash" with
      | some blockHash => do
          let blockHash ← blockHash.getString
          let _ ← data.value BasicJson.getBoolean "graphene_failed" false
          let _ ← data.value BasicJson.getUInt64 "mempool_count" 0
          return some (.reqRelayBlock (← stoul blockHash))
      | none => return none
  | some .block =>
      match data.member "block" with
      | some blockData => return some (.block (← WireBlock.ofJson blockData))
      | none => return none
  | some .grapheneBlock | some .grapheneRecoveryRequest | some .grapheneRecoveryResponse => none
  | some .invTransactions => return some (.invTransactions (← txHashes data))
  | some .reqTransactions => return some (.reqTransactions (← txHashes data))
  | some .transactions => return some (.transactions (← collect "transactions" Transaction.ofJson data))
  | _ => return none

end Message

/-- The message in a payload.  A payload that is not CBOR is skipped. -/
def readPayload (payload : Bytes) : Option (Option Message) :=
  match BasicJson.fromCbor payload with
  | .ok data => Message.ofJson data
  | .error .excessiveSize => none
  | .error _ => some none

/-! ## ranges -/

/-- The ranges of the members of a transaction. -/
structure Transaction.InRange (tx : Transaction) : Prop where
  txId : tx.txId < 2 ^ 64
  sizeBytes : tx.sizeBytes < 2 ^ 32
  fee : tx.fee < 2 ^ 32

/-- The ranges of the members of a block. -/
structure WireBlock.InRange (w : WireBlock) : Prop where
  blockId : w.blockId < 2 ^ 64
  minerId : w.minerId < 2 ^ 64
  timeCreated : BinaryFormat.double.Represents w.timeCreated
  parentHashes : ∀ p ∈ w.parentHashes, p < 2 ^ 64
  transactions : ∀ tx ∈ w.transactions, tx.InRange

/-- The numbers in the message are those of the C++ types. -/
def Message.InRange : Message → Prop
  | .invRelayBlock blockHash | .reqRelayBlock blockHash => blockHash < 2 ^ 64
  | .block w => w.InRange
  | .invTransactions txHashes | .reqTransactions txHashes => ∀ t ∈ txHashes, t < 2 ^ 64
  | .transactions txs => ∀ tx ∈ txs, tx.InRange

/-! ## round trip -/

theorem getUInt64_number {n : ℕ} (h : n < 2 ^ 64) :
    (number n).getUInt64.map UInt64.toNat = some n := by
  rw [number, BasicJson.getUInt64_numberUnsigned, Option.map_some, UInt64.toNat_ofNat_of_lt' h]

theorem getUInt32_number {n : ℕ} (h : n < 2 ^ 32) :
    (number n).getUInt32.map UInt32.toNat = some n := by
  rw [number, BasicJson.getUInt32_numberUnsigned h, Option.map_some, UInt32.toNat_ofNat_of_lt' h]

/-- The elements of an array that has arrived. -/
theorem mapM_received {α β : Type} {toJson : α → BasicJson} {read : BasicJson → Option β}
    {f : β → α} {l : List α} (h : ∀ a ∈ l, (read (toJson a).received).map f = some a) :
    (((l.map toJson).map BasicJson.received).mapM read).map (List.map f) = some l := by
  induction l with
  | nil => rfl
  | cons a l ih =>
      obtain ⟨ha, hl⟩ := List.forall_mem_cons.mp h
      obtain ⟨b, hb, rfl⟩ := Option.map_eq_some_iff.mp ha
      obtain ⟨bs, hbs, heq⟩ := Option.map_eq_some_iff.mp (ih hl)
      rw [List.map_cons, List.map_cons, List.mapM_cons, hb, hbs]
      exact congrArg (fun l => some (f b :: l)) heq

theorem Transaction.ofJson_received {tx : Transaction} (h : tx.InRange) :
    Transaction.ofJson tx.toJson.received = some tx := by
  obtain ⟨txId, htxId, hid⟩ := Option.map_eq_some_iff.mp (getUInt64_number h.txId)
  obtain ⟨size, hsize, hbytes⟩ := Option.map_eq_some_iff.mp (getUInt32_number h.sizeBytes)
  obtain ⟨fee, hfee, hamount⟩ := Option.map_eq_some_iff.mp (getUInt32_number h.fee)
  rw [Transaction.toJson, BasicJson.received_ofMembers, Transaction.ofJson,
    BasicJson.value_ofMembers, BasicJson.value_ofMembers, BasicJson.value_ofMembers]
  calc
    _ = ((number tx.txId).getUInt64.bind fun txId => (number tx.sizeBytes).getUInt32.bind fun size =>
          (number tx.fee).getUInt32.bind fun fee =>
            some (Transaction.mk txId.toNat size.toNat fee.toNat)) := rfl
    _ = some tx := by
      rw [htxId, hsize, hfee]
      simp only [Option.bind_some, hid, hbytes, hamount]

theorem mapM_ofJson_received {txs : List Transaction} (h : ∀ tx ∈ txs, tx.InRange) :
    ((txs.map Transaction.toJson).map BasicJson.received).mapM Transaction.ofJson = some txs := by
  have hread : ∀ tx ∈ txs, (Transaction.ofJson tx.toJson.received).map id = some tx :=
    fun tx htx => by rw [Transaction.ofJson_received (h tx htx), Option.map_some, id]
  have hall := mapM_received hread
  rwa [List.map_id_fun, Option.map_id, id] at hall

theorem WireBlock.ofJson_received {w : WireBlock} (h : w.InRange) :
    WireBlock.ofJson w.toJson.received = some w := by
  obtain ⟨blockId, hblockId, hid⟩ := Option.map_eq_some_iff.mp (getUInt64_number h.blockId)
  obtain ⟨minerId, hminerId, hminer⟩ := Option.map_eq_some_iff.mp (getUInt64_number h.minerId)
  have htime := BasicJson.getDouble_numberFloat h.timeCreated
  have hparents : (((w.parentHashes.map number).map BasicJson.received).mapM
      BasicJson.getUInt64).map (List.map UInt64.toNat) = some w.parentHashes :=
    mapM_received fun p hp => getUInt64_number (h.parentHashes p hp)
  have htxs := mapM_ofJson_received h.transactions
  obtain ⟨parents, hmapM, hhashes⟩ := Option.map_eq_some_iff.mp hparents
  rw [WireBlock.toJson, BasicJson.received_ofMembers, WireBlock.ofJson,
    BasicJson.value_ofMembers, BasicJson.value_ofMembers, BasicJson.value_ofMembers, collect,
    collect, BasicJson.member_ofMembers, BasicJson.member_ofMembers]
  calc
    _ = ((number w.blockId).getUInt64.bind fun blockId => (number w.minerId).getUInt64.bind fun minerId =>
          (BasicJson.numberFloat (BasicJson.receivedFloat
            (.ofNat (BinaryFormat.double.ofRat w.timeCreated)))).getDouble.bind fun timeCreated =>
          ((BasicJson.array (w.parentHashes.map number)).received.elements.mapM
            BasicJson.getUInt64).bind fun parents =>
          ((BasicJson.array (w.transactions.map Transaction.toJson)).received.elements.mapM
            Transaction.ofJson).bind fun txs =>
          some (WireBlock.mk blockId.toNat minerId.toNat timeCreated (parents.map UInt64.toNat) txs)) :=
        rfl
    _ = some w := by
      rw [hblockId, hminerId, htime, BasicJson.elements_received_array,
        BasicJson.elements_received_array, hmapM, htxs]
      simp only [Option.bind_some, hid, hminer, hhashes]

namespace Message

/-- The kind of a message that has arrived. -/
theorem value_msg (m : Message) (members : List (Bytes × BasicJson)) :
    (ofMembers (members ++ [(text "msg", number m.type.value)])).value BasicJson.getInt "msg" 0 =
      (number m.type.value).getInt := by
  rw [BasicJson.value_ofMembers, List.reverse_append]
  rfl

theorem ofInt_getInt (m : Message) :
    ∃ msg, (number m.type.value).getInt = some msg ∧ Messages.ofInt msg.toInt = some m.type := by
  cases m <;> exact ⟨_, rfl, rfl⟩

theorem txHashes_received {members : List (Bytes × BasicJson)} {ids : List ℕ}
    (hmember : (ofMembers members).member "tx_hashes" =
      some (BasicJson.array (ids.map number)).received) (hids : ∀ t ∈ ids, t < 2 ^ 64) :
    txHashes (ofMembers members) = some ids := by
  rw [txHashes, hmember, BasicJson.received, BasicJson.receivedElements_eq]
  exact mapM_received fun t ht => getUInt64_number (hids t ht)

/-- **A message is read as it was sent.** -/
theorem ofJson_received {m : Message} (h : m.InRange) : ofJson m.toJson.received = some (some m) := by
  obtain ⟨msg, hmsg, htype⟩ := ofInt_getInt m
  have hobject : m.toJson.received =
      ofMembers (m.members.map (fun m => (m.1, m.2.received)) ++ [(text "msg", number m.type.value)]) := by
    rw [toJson, BasicJson.received_ofMembers, List.map_append]
    rfl
  rw [hobject, ofJson, value_msg, hmsg]
  refine (Option.bind_some msg _).trans ?_
  rw [htype]
  cases m with
  | invRelayBlock blockHash =>
      rw [BasicJson.member_ofMembers]
      exact congrArg (·.bind fun id => some (some (invRelayBlock id))) (idOfHash_toDecimal h)
  | reqRelayBlock blockHash =>
      rw [BasicJson.member_ofMembers, BasicJson.value_ofMembers, BasicJson.value_ofMembers]
      exact congrArg (·.bind fun id => some (some (reqRelayBlock id))) (stoul_toDecimal h)
  | block w =>
      rw [BasicJson.member_ofMembers]
      exact congrArg (·.bind fun w => some (some (block w))) (WireBlock.ofJson_received h)
  | invTransactions txHashes =>
      have hids := txHashes_received (BasicJson.member_ofMembers ((invTransactions txHashes).members.map
        (fun m => (m.1, m.2.received)) ++ [(text "msg", number 11)]) "tx_hashes") h
      exact congrArg (·.bind fun ids => some (some (invTransactions ids))) hids
  | reqTransactions txHashes =>
      have hids := txHashes_received (BasicJson.member_ofMembers ((reqTransactions txHashes).members.map
        (fun m => (m.1, m.2.received)) ++ [(text "msg", number 12)]) "tx_hashes") h
      exact congrArg (·.bind fun ids => some (some (reqTransactions ids))) hids
  | transactions txs =>
      have hall := mapM_ofJson_received h
      rw [← BasicJson.elements_received_array] at hall
      exact congrArg (·.bind fun txs => some (some (transactions txs))) hall

/-! ## bytes -/

theorem regular_toJson (m : Message) : m.toJson.Regular := by
  have hnumbers : ∀ ids : List ℕ, (BasicJson.array (ids.map number)).Regular := fun ids =>
    .array fun j hj => by
      obtain ⟨n, -, rfl⟩ := List.mem_map.mp hj
      exact .numberUnsigned _
  have htxs : ∀ txs : List Transaction, (BasicJson.array (txs.map Transaction.toJson)).Regular :=
    fun txs => .array fun j hj => by
      obtain ⟨tx, -, rfl⟩ := List.mem_map.mp hj
      refine BasicJson.regular_ofMembers ?_
      simp only [List.forall_mem_cons]
      exact ⟨.numberUnsigned _, .numberUnsigned _, .numberUnsigned _, fun m hm => absurd hm List.not_mem_nil⟩
  refine BasicJson.regular_ofMembers (List.forall_mem_append.mpr ⟨?_, ?_⟩)
  · cases m with
    | invRelayBlock blockHash => exact List.forall_mem_singleton.mpr (.string _)
    | reqRelayBlock blockHash => exact List.forall_mem_singleton.mpr (.string _)
    | block w =>
        refine List.forall_mem_singleton.mpr (BasicJson.regular_ofMembers ?_)
        simp only [List.forall_mem_cons]
        exact ⟨.numberUnsigned _, .numberUnsigned _, .numberFloat _, hnumbers _, htxs _,
          fun m hm => absurd hm List.not_mem_nil⟩
    | invTransactions txHashes => exact List.forall_mem_singleton.mpr (hnumbers _)
    | reqTransactions txHashes => exact List.forall_mem_singleton.mpr (hnumbers _)
    | transactions txs => exact List.forall_mem_singleton.mpr (htxs _)
  · exact List.forall_mem_singleton.mpr (.numberUnsigned _)

/-- **A payload that fits into memory is read as the message that was sent.** -/
theorem readPayload_encode {m : Message} (h : m.InRange) (hlen : m.encode.length < 2 ^ 56) :
    readPayload m.encode = some (some m) := by
  rw [readPayload, encode, BasicJson.fromCbor_writeCbor (regular_toJson m) hlen]
  exact ofJson_received h

/-- **Messages and their payloads**: a payload is read as the message that was
sent, and the payload of no other message begins with it. -/
theorem payload_code {m m' : Message} (h : m.InRange) (h' : m'.InRange)
    (hlen : m.encode.length < 2 ^ 56) (hlen' : m'.encode.length < 2 ^ 56) :
    readPayload m.encode = some (some m) ∧ (m.encode <+: m'.encode → m = m') := by
  have hread := readPayload_encode h hlen
  refine ⟨hread, fun ⟨more, hmore⟩ => ?_⟩
  have hitem : BasicJson.Item m.encode _ :=
    BasicJson.item_writeCbor ((regular_toJson m).portable hlen)
  have hitem' : BasicJson.Item m'.encode _ :=
    BasicJson.item_writeCbor ((regular_toJson m').portable hlen')
  rw [← hmore] at hitem'
  obtain ⟨rfl, -⟩ := hitem.prefix_free hitem'
  rw [List.append_nil] at hmore
  rw [hmore, readPayload_encode h' hlen'] at hread
  exact (Option.some.inj (Option.some.inj hread)).symm

/-- A block with one transaction, mined after a second and a half. -/
def oneBlock : WireBlock where
  blockId := 2 ^ 63 + 5
  minerId := 2 ^ 31
  timeCreated := 3 / 2
  parentHashes := [0, 7]
  transactions := [{ txId := 2 ^ 32 + 1, sizeBytes := 522, fee := 40 }]

theorem inRange_oneBlock : oneBlock.InRange where
  blockId := by decide
  minerId := by decide
  timeCreated := ⟨0x3FF8000000000000, by decide, by decide, by decide +kernel⟩
  parentHashes := by decide
  transactions := List.forall_mem_singleton.mpr ⟨by decide, by decide, by decide⟩

theorem payload_code_block : readPayload (block oneBlock).encode = some (some (block oneBlock)) ∧
    ((block oneBlock).encode <+: (invRelayBlock 7).encode → block oneBlock = invRelayBlock 7) :=
  payload_code inRange_oneBlock (by decide : (7 : ℕ) < 2 ^ 64) (by decide +kernel) (by decide +kernel)

/-! ## sizes -/

/-- `m_message_header_size`, `m_inventory_size`, `m_headers_size`,
`m_parent_hash_size` and `m_transaction_size`. -/
def messageHeaderSize : Nat := 90
def inventorySize : Nat := 36
def headersSize : Nat := 81
def parentHashSize : Nat := 32
def transactionSize : Nat := 522

/-- `WireSizeInv`, `WireSizeBlock`, `WireSizeTxInv` and `WireSizeTxs`: what a
message is modelled to take. -/
def wireSize : Message → UInt32
  | .invRelayBlock _ | .reqRelayBlock _ => .ofNat (messageHeaderSize + inventorySize)
  | .block w => .ofNat (messageHeaderSize + headersSize + parentHashSize * w.parentHashes.length
      + transactionSize * w.transactions.length)
  | .invTransactions txHashes | .reqTransactions txHashes =>
      .ofNat (messageHeaderSize + inventorySize * txHashes.length)
  | .transactions txs => .ofNat (messageHeaderSize + transactionSize * txs.length)

/-- What `SendSerialized` is called with. -/
def serialized (m : Message) : Serialized := { serialized := m.encode, wireBytes := m.wireSize }

end Message

end GhostDag
