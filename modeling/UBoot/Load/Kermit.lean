import UBoot.Lib.Memory

/-!
# Receiving a file by Kermit

`k_recv` of `common/cmd_load.c` reads packets from the serial line, acknowledges those that
are correct, and writes the data to memory while it reads it.  To take a packet back, it
remembers where the data stood when the packet began; a packet of the same number as the one
before it is taken for a repetition of it.

The sender waits for the acknowledgement of a packet before it sends the next one, and sends
it again until it hears one with the number of the packet.  What arrives of a packet is up to
the line, and so is whether an acknowledgement is heard.
-/

namespace Kermit

/-- `START_CHAR`. -/
def startChar : Byte := 0x01

/-- `ETX_CHAR`. -/
def etxChar : Byte := 0x03

/-- `END_CHAR`. -/
def endChar : Byte := 0x0d

/-- `K_ESCAPE`. -/
def kEscape : Byte := 0x23

/-- `SEND_TYPE`. -/
def sendType : Byte := 0x53

/-- `DATA_TYPE`. -/
def dataType : Byte := 0x44

/-- `BREAK_TYPE`. -/
def breakType : Byte := 0x42

/-- `SEND_DATA_SIZE`. -/
def sendDataSize : ℕ := 20

/-- `untochar`. -/
def untochar (c : Byte) : ℕ := (c - 0x20).toNat

/-- `tochar`. -/
def tochar (n : ℕ) : Byte := UInt8.ofNat (n + 0x20)

/-- The check character for a sum. -/
def checkChar (sum : ℕ) : Byte := tochar ((sum + (sum >>> 6 &&& 0x03)) &&& 0x3f)

/-- `ktrans`: the character that is meant by a quoted one. -/
def ktrans (c : Byte) : Byte :=
  if c &&& 0x60 = 0x40 then c &&& ~~~0x40
  else if c &&& 0x7f = 0x3f then c ||| 0x40
  else c

/-- The state machines of `k_recv`; `os_data_state` is always `0`. -/
structure Recv where
  mem : ℕ → Byte
  addr : ℕ
  addrSaved : ℕ
  escape : Bool
  escapeSaved : Bool
  kState : Byte
  kStateSaved : Byte
  n : ℕ
  lastN : Option ℕ
  sendParms : List Byte
  hisQuote : Byte

namespace Recv

/-- The state at the start of `k_recv`. -/
def init (mem : ℕ → Byte) (start : ℕ) : Recv where
  mem := mem
  addr := start
  addrSaved := start
  escape := false
  escapeSaved := false
  kState := 0
  kStateSaved := 0
  n := 0
  lastN := none
  sendParms := []
  hisQuote := kEscape

/-- `k_data_char`, with `bin_data_char`. -/
def kDataChar (s : Recv) (c : Byte) : Recv :=
  if s.escape then
    { s with mem := Function.update s.mem s.addr (ktrans c), addr := s.addr + 1, escape := false }
  else if c = s.hisQuote then { s with escape := true }
  else { s with mem := Function.update s.mem s.addr c, addr := s.addr + 1 }

/-- A character of the data field. -/
def fieldChar (s : Recv) (c : Byte) : Recv :=
  if s.kState = dataType then s.kDataChar c
  else if s.kState = sendType then
    -- what does not fit goes to the last place of the buffer, where it is ignored
    if s.sendParms.length < sendDataSize - 1 then { s with sendParms := s.sendParms ++ [c] } else s
  else s

/-- The checkpoint: a new number saves the state, the number of the last packet restores it. -/
def checkpoint (s : Recv) (n : ℕ) : Recv :=
  if s.lastN = some n then
    { s with n := n, kState := s.kStateSaved, addr := s.addrSaved, escape := s.escapeSaved }
  else
    { s with
      n := n
      lastN := some n
      kStateSaved := s.kState
      addrSaved := s.addr
      escapeSaved := s.escape }

/-- A new packet sets `send_ptr` back. -/
def newPacket (s : Recv) : Recv := { s with sendParms := [] }

/-- The type of the packet. -/
def withType (s : Recv) (type : Byte) : Recv := { s with kState := type }

/-- What follows the label `packet_error`. -/
def restore (s : Recv) : Recv :=
  { s with kState := s.kStateSaved, addr := s.addrSaved, escape := s.escapeSaved }

/-- What `handle_send_packet` keeps of the parameters. -/
def handleSendPacket (s : Recv) : Recv :=
  let bytes := if s.sendParms.length = sendDataSize - 1 then s.sendParms.dropLast else s.sendParms
  { s with hisQuote := bytes.getD 5 kEscape }

end Recv

/-- How a packet ends: with a negative acknowledgement because of its length or its number,
or because of something behind them, or with an acknowledgement. -/
inductive Event where
  | unnumbered
  | rejected (n : ℕ)
  | accepted (n : ℕ) (type : Byte) (field : List Byte)
deriving DecidableEq

/-- The end of the transmission. -/
def Event.isBreak : Event → Bool
  | .accepted _ type _ => type = breakType
  | _ => false

/-- `getc` and the test for a control character.  It does not return while it waits. -/
def getc {β : Type*} (input : List Byte) (error : List Byte → Option β)
    (next : Byte → List Byte → Option β) : Option β :=
  match input with
  | [] => none
  | c :: input => if c &&& 0xe0 = 0 then error input else next c input

/-- The end of a packet: the event, the state, and what is left of the input. -/
abbrev Received := Event × Recv × List Byte

/-- The check character and the end of the packet. -/
def trailer (s : Recv) (sum : ℕ) (field : List Byte) (input : List Byte) : Option Received :=
  let error := fun input => some (.rejected s.n, s.restore, input)
  getc input error fun c input =>
  if c ≠ checkChar sum then error input
  else
    match input with
    | [] => none
    | c :: input =>
      if c ≠ endChar then error input
      else
        let s' := if s.kState = sendType then s.handleSendPacket else s
        some (.accepted s.n s.kState field, s', input)

/-- The data field, with `length` characters to go; `field` are those that were read. -/
def dataField : ℕ → Recv → ℕ → List Byte → List Byte → Option Received
  | 0, s, sum, field, input => trailer s sum field input
  | length + 1, s, sum, field, input =>
    getc input (fun input => some (.rejected s.n, s.restore, input)) fun c input =>
    dataField length (s.fieldChar c) (sum + c.toNat) (field ++ [c]) input

/-- A packet behind its type; a length of `-2` stands for an extended one. -/
def packetBody (s : Recv) (length : ℤ) (sum : ℕ) (input : List Byte) : Option Received :=
  let error := fun input => some (.rejected s.n, s.restore, input)
  if length = -2 then
    getc input error fun hi input =>
    getc input error fun lo input =>
    let sum := sum + hi.toNat + lo.toNat
    let length := untochar hi * 95 + untochar lo
    getc input error fun c input =>
    if c ≠ checkChar sum then error input
    else dataField (length - 1) s (sum + c.toNat) [] input
  else dataField (length - 1).toNat s sum [] input

/-- A packet behind its mark. -/
def packet (s : Recv) (input : List Byte) : Option Received :=
  let error := fun input => some (.unnumbered, s.restore, input)
  getc input error fun len input =>
  getc input error fun seq input =>
  let s := s.checkpoint (untochar seq)
  getc input (fun input => some (.rejected s.n, s.restore, input)) fun type input =>
  packetBody (s.withType type) (untochar len - 2) (len.toNat + seq.toNat + type.toNat) input

/-- Waiting for the mark of a packet, or for a `^C`. -/
def waitStart : List Byte → Option (Bool × List Byte)
  | [] => none
  | c :: input =>
    if c = startChar then some (true, input)
    else if c = etxChar then some (false, input)
    else waitStart input

/-- One round of `k_recv`: the state it finds, what comes behind the mark of the packet, and
how the packet ends. -/
structure Round where
  before : Recv
  input : List Byte
  event : Event

/-- What `k_recv` leaves: the rounds, the memory, and the size, unless it was stopped by a
`^C`, when it returns `0`. -/
structure Outcome where
  rounds : List Round
  mem : ℕ → Byte
  size : Option ℕ

/-- The main loop of `k_recv`; `none` while it waits. -/
def kLoop (start : ℕ) : ℕ → Recv → List Byte → Option Outcome
  | 0, _, _ => none
  | fuel + 1, s, input =>
    match waitStart input with
    | none => none
    | some (false, _) => some ⟨[], s.mem, none⟩
    | some (true, input) =>
      match packet s.newPacket input with
      | none => none
      | some (event, s', rest) =>
        let r : Round := ⟨s.newPacket, input, event⟩
        if event.isBreak then some ⟨[r], s'.mem, some (s'.addr - start)⟩
        else (kLoop start fuel s' rest).map fun out => { out with rounds := r :: out.rounds }

/-- `k_recv`.  Each round reads at least one character. -/
def kRecv (mem : ℕ → Byte) (start : ℕ) (input : List Byte) : Option Outcome :=
  kLoop start (input.length + 1) (Recv.init mem start) input

/-! ### The data field -/

/-- The bytes that the characters of a data field stand for, and whether the last of them is
a quote. -/
def decode (quote : Byte) : Bool → List Byte → List Byte × Bool
  | escape, [] => ([], escape)
  | true, c :: field =>
    let (bytes, escape) := decode quote false field
    (ktrans c :: bytes, escape)
  | false, c :: field =>
    if c = quote then decode quote true field
    else
      let (bytes, escape) := decode quote false field
      (c :: bytes, escape)

theorem decode_nil (quote : Byte) (escape : Bool) :
  decode quote escape [] = ([], escape)
  := by
  cases escape <;> rfl

/-- Decoding goes on with the state that the first character leaves. -/
theorem decode_cons (quote : Byte) (escape : Bool) (c : Byte) (field : List Byte) :
  decode quote escape (c :: field)
    = ((decode quote escape [c]).1 ++ (decode quote (decode quote escape [c]).2 field).1,
        (decode quote (decode quote escape [c]).2 field).2)
  := by
  cases escape with
  | true => rfl
  | false =>
    by_cases hc : c = quote
    · simp [decode, hc]
    · simp [decode, hc]

variable {s t : Recv} {start : ℕ}

/-- The states differ at most in the data and in the parameters. -/
structure SameFrame (s t : Recv) : Prop where
  n : t.n = s.n
  kState : t.kState = s.kState
  lastN : t.lastN = s.lastN
  addrSaved : t.addrSaved = s.addrSaved
  escapeSaved : t.escapeSaved = s.escapeSaved
  hisQuote : t.hisQuote = s.hisQuote

theorem SameFrame.trans {u : Recv} (h : SameFrame s t) (h' : SameFrame t u) :
  SameFrame s u
  := ⟨h'.n.trans h.n, h'.kState.trans h.kState, h'.lastN.trans h.lastN, h'.addrSaved.trans h.addrSaved,
    h'.escapeSaved.trans h.escapeSaved, h'.hisQuote.trans h.hisQuote⟩

theorem sameFrame_kDataChar (s : Recv) (c : Byte) :
  SameFrame s (s.kDataChar c)
  := by
  unfold Recv.kDataChar
  split
  · exact ⟨rfl, rfl, rfl, rfl, rfl, rfl⟩
  · split <;> exact ⟨rfl, rfl, rfl, rfl, rfl, rfl⟩

theorem sameFrame_fieldChar (s : Recv) (c : Byte) :
  SameFrame s (s.fieldChar c)
  := by
  unfold Recv.fieldChar
  split
  · apply sameFrame_kDataChar
  · split
    · split <;> exact ⟨rfl, rfl, rfl, rfl, rfl, rfl⟩
    · exact ⟨rfl, rfl, rfl, rfl, rfl, rfl⟩

/-- The characters of a field, one after the other. -/
def Recv.fields (s : Recv) (field : List Byte) : Recv := field.foldl Recv.fieldChar s

theorem sameFrame_fields (s : Recv) (field : List Byte) :
  SameFrame s (s.fields field)
  := by
  induction field generalizing s with
  | nil => exact ⟨rfl, rfl, rfl, rfl, rfl, rfl⟩
  | cons c field ih => apply (sameFrame_fieldChar s c).trans (ih _)

theorem kDataChar_eq (s : Recv) (c : Byte) :
  (s.kDataChar c).mem = Memory.store s.mem s.addr (decode s.hisQuote s.escape [c]).1
    ∧ (s.kDataChar c).addr = s.addr + (decode s.hisQuote s.escape [c]).1.length
    ∧ (s.kDataChar c).escape = (decode s.hisQuote s.escape [c]).2
  := by
  unfold Recv.kDataChar
  cases he : s.escape with
  | true => exact ⟨rfl, rfl, rfl⟩
  | false =>
    by_cases hc : c = s.hisQuote
    · simp [decode, hc, Memory.store]
    · simp [decode, hc, Memory.store]

/-- A data field is stored as it is decoded. -/
theorem fields_of_data (h : s.kState = dataType) (field : List Byte) :
  (s.fields field).mem = Memory.store s.mem s.addr (decode s.hisQuote s.escape field).1
    ∧ (s.fields field).addr = s.addr + (decode s.hisQuote s.escape field).1.length
    ∧ (s.fields field).escape = (decode s.hisQuote s.escape field).2
  := by
  induction field generalizing s with
  | nil =>
    rw [decode_nil]
    exact ⟨rfl, rfl, rfl⟩
  | cons c field ih =>
    have hframe := sameFrame_fieldChar s c
    have hchar : s.fieldChar c = s.kDataChar c := if_pos h
    obtain ⟨hmem, haddr, hescape⟩ := ih (hframe.kState.trans h)
    obtain ⟨hmem', haddr', hescape'⟩ := kDataChar_eq s c
    rw [hframe.hisQuote, hchar, hescape'] at hmem haddr hescape
    rw [hmem', haddr'] at hmem
    rw [haddr'] at haddr
    rw [decode_cons, Memory.store_append, List.length_append, ← Nat.add_assoc]
    rw [show s.fields (c :: field) = (s.fieldChar c).fields field from rfl, hchar]
    exact ⟨hmem, haddr, hescape⟩

/-- Another field stores nothing. -/
theorem fields_of_ne_data (h : s.kState ≠ dataType) (field : List Byte) :
  (s.fields field).mem = s.mem ∧ (s.fields field).addr = s.addr
    ∧ (s.fields field).escape = s.escape
  := by
  induction field generalizing s with
  | nil => exact ⟨rfl, rfl, rfl⟩
  | cons c field ih =>
    have hframe := sameFrame_fieldChar s c
    have ih := ih (s := s.fieldChar c) (by rwa [hframe.kState])
    have hchar : (s.fieldChar c).mem = s.mem ∧ (s.fieldChar c).addr = s.addr
        ∧ (s.fieldChar c).escape = s.escape := by
      unfold Recv.fieldChar
      rw [if_neg h]
      split
      · split <;> exact ⟨rfl, rfl, rfl⟩
      · exact ⟨rfl, rfl, rfl⟩
    exact ⟨ih.1.trans hchar.1, ih.2.1.trans hchar.2.1, ih.2.2.trans hchar.2.2⟩

/-- The bytes that a field stores, and the state of the decoder behind it. -/
def Recv.stored (s : Recv) (type : Byte) (field : List Byte) : List Byte × Bool :=
  if type = dataType then decode s.hisQuote s.escape field else ([], s.escape)

theorem fields_eq (s : Recv) (field : List Byte) :
  (s.fields field).mem = Memory.store s.mem s.addr (s.stored s.kState field).1
    ∧ (s.fields field).addr = s.addr + (s.stored s.kState field).1.length
    ∧ (s.fields field).escape = (s.stored s.kState field).2
  := by
  unfold Recv.stored
  by_cases h : s.kState = dataType
  · rw [if_pos h]
    apply fields_of_data h
  · rw [if_neg h]
    apply fields_of_ne_data h

/-! ### One packet -/

/-- The number of a packet, unless its length or its number is a control character. -/
def number : List Byte → Option ℕ
  | len :: seq :: _ => if len &&& 0xe0 = 0 ∨ seq &&& 0xe0 = 0 then none else some (untochar seq)
  | _ => none

/-- What a packet of the type `type` does, once its number was read. -/
def Ends (c : Recv) (r : Received) : Prop :=
  ∃ field, r.1 = .rejected c.n ∧ r.2.1 = (c.fields field).restore
    ∨ r.1 = .accepted c.n c.kState field
      ∧ r.2.1 = if c.kState = sendType then (c.fields field).handleSendPacket else c.fields field

theorem getc_cases {β : Type*} {input : List Byte} {error : List Byte → Option β}
    {next : Byte → List Byte → Option β} {r : β} (h : getc input error next = some r) :
  ∃ c rest, input = c :: rest
    ∧ (c &&& 0xe0 = 0 ∧ error rest = some r ∨ c &&& 0xe0 ≠ 0 ∧ next c rest = some r)
  := by
  cases input with
  | nil => cases h
  | cons c rest =>
    refine ⟨c, rest, rfl, ?_⟩
    simp only [getc] at h
    split at h
    case isTrue hc => exact .inl ⟨hc, h⟩
    case isFalse hc => exact .inr ⟨hc, h⟩

theorem ends_error {c : Recv} (field : List Byte) {input : List Byte} {r : Received}
    (h : some (Event.rejected (c.fields field).n, (c.fields field).restore, input) = some r) :
  Ends c r
  := by
  obtain rfl := Option.some.inj h
  refine ⟨field, .inl ⟨?_, rfl⟩⟩
  rw [(sameFrame_fields c field).n]

theorem trailer_ends {c : Recv} {sum : ℕ} {field input : List Byte} {r : Received}
    (h : trailer (c.fields field) sum field input = some r) :
  Ends c r
  := by
  have hframe := sameFrame_fields c field
  obtain ⟨d, rest, rfl, ⟨-, h⟩ | ⟨-, h⟩⟩ := getc_cases h
  · apply ends_error field h
  · split at h
    · apply ends_error field h
    · cases rest with
      | nil => cases h
      | cons e rest =>
        simp only [hframe.n, hframe.kState] at h
        split at h
        · rw [← hframe.n] at h
          apply ends_error field h
        · obtain rfl := Option.some.inj h
          exact ⟨field, .inr ⟨rfl, rfl⟩⟩

theorem dataField_ends {c : Recv} {length sum : ℕ} (field : List Byte) {input : List Byte}
    {r : Received} (h : dataField length (c.fields field) sum field input = some r) :
  Ends c r
  := by
  induction length generalizing sum field input with
  | zero => apply trailer_ends h
  | succ length ih =>
    obtain ⟨d, rest, rfl, ⟨-, h⟩ | ⟨-, h⟩⟩ := getc_cases h
    · apply ends_error field h
    · apply ih (field ++ [d])
      rw [show c.fields (field ++ [d]) = (c.fields field).fieldChar d by simp [Recv.fields]]
      apply h

theorem packetBody_ends {c : Recv} {length : ℤ} {sum : ℕ} {input : List Byte} {r : Received}
    (h : packetBody c length sum input = some r) :
  Ends c r
  := by
  rw [packetBody] at h
  split at h
  · obtain ⟨_, _, -, ⟨-, h⟩ | ⟨-, h⟩⟩ := getc_cases h
    · apply ends_error [] h
    · obtain ⟨_, _, -, ⟨-, h⟩ | ⟨-, h⟩⟩ := getc_cases h
      · apply ends_error [] h
      · obtain ⟨_, _, -, ⟨-, h⟩ | ⟨-, h⟩⟩ := getc_cases h
        · apply ends_error [] h
        · split at h
          · apply ends_error [] h
          · apply dataField_ends [] h
  · apply dataField_ends [] h

/-- **What a packet can do.**  It fails before its number was compared, or it takes the
checkpoint for its number and then fails or is acknowledged. -/
theorem packet_cases {input : List Byte} {r : Received} (h : packet s input = some r) :
  (number input = none ∧ r.1 = .unnumbered ∧ r.2.1 = s.restore)
    ∨ ∃ n type, number input = some n ∧ Ends ((s.checkpoint n).withType type) r
  := by
  rw [packet] at h
  obtain ⟨len, input, rfl, ⟨hlen, h⟩ | ⟨hlen, h⟩⟩ := getc_cases h
  · obtain rfl := Option.some.inj h
    refine .inl ⟨?_, rfl, rfl⟩
    cases input with
    | nil => rfl
    | cons seq input => simp [number, hlen]
  · obtain ⟨seq, input, rfl, ⟨hseq, h⟩ | ⟨hseq, h⟩⟩ := getc_cases h
    · obtain rfl := Option.some.inj h
      exact .inl ⟨by simp [number, hseq], rfl, rfl⟩
    · have hnumber : number (len :: seq :: input) = some (untochar seq) := by
        simp [number, hlen, hseq]
      obtain ⟨type, _, rfl, ⟨_, h⟩ | ⟨_, h⟩⟩ := getc_cases h
      · obtain rfl := Option.some.inj h
        exact .inr ⟨_, type, hnumber, [], .inl ⟨rfl, rfl⟩⟩
      · exact .inr ⟨_, type, hnumber, packetBody_ends h⟩

/-- The checkpoint, whichever way it goes. -/
theorem checkpoint_spec (s : Recv) (n : ℕ) :
  (s.checkpoint n).n = n ∧ (s.checkpoint n).lastN = some n
    ∧ (s.checkpoint n).addrSaved = (s.checkpoint n).addr
    ∧ (s.checkpoint n).escapeSaved = (s.checkpoint n).escape
    ∧ (s.checkpoint n).mem = s.mem ∧ (s.checkpoint n).hisQuote = s.hisQuote
  := by
  unfold Recv.checkpoint
  split
  case isTrue h => exact ⟨rfl, h, rfl, rfl, rfl, rfl⟩
  case isFalse h => exact ⟨rfl, rfl, rfl, rfl, rfl, rfl⟩

/-- A packet of the number `n` has begun where its checkpoint is, and `bytes` were stored
from there on. -/
structure Began (s : Recv) (n : ℕ) (bytes : List Byte) (s' : Recv) : Prop where
  lastN : s'.lastN = some n
  addrSaved : s'.addrSaved = (s.checkpoint n).addr
  escapeSaved : s'.escapeSaved = (s.checkpoint n).escape
  mem : s'.mem = Memory.store s.mem (s.checkpoint n).addr bytes

theorem began_fields (s : Recv) (n : ℕ) (type : Byte) (field : List Byte) :
  Began s n ((s.checkpoint n).stored type field).1
    (((s.checkpoint n).withType type).fields field)
  := by
  obtain ⟨-, hlast, haddr, hescape, hmem, -⟩ := checkpoint_spec s n
  have hframe := sameFrame_fields ((s.checkpoint n).withType type) field
  have hfields := fields_eq ((s.checkpoint n).withType type) field
  refine ⟨hframe.lastN.trans hlast, hframe.addrSaved.trans haddr, hframe.escapeSaved.trans hescape, ?_⟩
  rw [hfields.1, ← hmem]
  rfl

/-- How the numbered packets of `packet_cases` end. -/
theorem packet_numbered {n : ℕ} {type : Byte} {r : Received}
    (h : Ends ((s.checkpoint n).withType type) r) :
  (r.1 = .rejected n ∧ r.2.1.addr = (s.checkpoint n).addr ∧ r.2.1.escape = (s.checkpoint n).escape
      ∧ ∃ bytes, Began s n bytes r.2.1)
    ∨ ∃ field, r.1 = .accepted n type field
      ∧ Began s n ((s.checkpoint n).stored type field).1 r.2.1
      ∧ r.2.1.addr = (s.checkpoint n).addr + ((s.checkpoint n).stored type field).1.length
      ∧ r.2.1.escape = ((s.checkpoint n).stored type field).2
  := by
  obtain ⟨hn, -, haddr, hescape, -, -⟩ := checkpoint_spec s n
  obtain ⟨field, ⟨hevent, hstate⟩ | ⟨hevent, hstate⟩⟩ := h
  · have hbegan := began_fields s n type field
    left
    rw [hevent, hstate]
    refine ⟨congrArg Event.rejected hn, hbegan.addrSaved, hbegan.escapeSaved, _, hbegan.lastN, hbegan.addrSaved,
      hbegan.escapeSaved, hbegan.mem⟩
  · have hbegan := began_fields s n type field
    have hfields := fields_eq ((s.checkpoint n).withType type) field
    right
    refine ⟨field, hevent.trans (congrArg (Event.accepted · type field) hn), ?_⟩
    rw [hstate]
    split
    · exact ⟨⟨hbegan.lastN, hbegan.addrSaved, hbegan.escapeSaved, hbegan.mem⟩, hfields.2.1, hfields.2.2⟩
    · exact ⟨hbegan, hfields.2.1, hfields.2.2⟩

/-! ### The fuel -/

/-- What is left of the input when a packet ends. -/
theorem getc_length {input : List Byte} {error : List Byte → Option Received}
    {next : Byte → List Byte → Option Received} {r : Received} (h : getc input error next = some r)
    (herror : ∀ {rest}, error rest = some r → r.2.2.length ≤ rest.length)
    (hnext : ∀ {c rest}, next c rest = some r → r.2.2.length ≤ rest.length) :
  r.2.2.length ≤ input.length
  := by
  obtain ⟨c, rest, rfl, ⟨-, h⟩ | ⟨-, h⟩⟩ := getc_cases h
  · apply le_trans (herror h) (Nat.le_succ _)
  · apply le_trans (hnext h) (Nat.le_succ _)

theorem error_length {event : Event} {input : List Byte} {r : Received}
    (h : some (event, s, input) = some r) :
  r.2.2.length ≤ input.length
  := by
  obtain rfl := Option.some.inj h
  apply le_refl

theorem trailer_length {sum : ℕ} {field input : List Byte} {r : Received}
    (h : trailer s sum field input = some r) :
  r.2.2.length ≤ input.length
  := by
  apply getc_length h error_length
  intro c rest h
  split at h
  · apply error_length h
  · cases rest with
    | nil => cases h
    | cons d rest =>
      simp only at h
      apply le_trans _ (Nat.le_succ _)
      split at h
      · apply error_length h
      · apply error_length h

theorem dataField_length {length sum : ℕ} {field input : List Byte} {r : Received}
    (h : dataField length s sum field input = some r) :
  r.2.2.length ≤ input.length
  := by
  induction length generalizing s sum field input with
  | zero => apply trailer_length h
  | succ length ih => apply getc_length h error_length ih

theorem packetBody_length {length : ℤ} {sum : ℕ} {input : List Byte} {r : Received}
    (h : packetBody s length sum input = some r) :
  r.2.2.length ≤ input.length
  := by
  rw [packetBody] at h
  split at h
  · apply getc_length h error_length
    intro hi input h
    apply getc_length h error_length
    intro lo input h
    apply getc_length h error_length
    intro c input h
    split at h
    · apply error_length h
    · apply dataField_length h
  · apply dataField_length h

theorem packet_length {input : List Byte} {r : Received} (h : packet s input = some r) :
  r.2.2.length ≤ input.length
  := by
  apply getc_length h error_length
  intro len input h
  apply getc_length h error_length
  intro seq input h
  apply getc_length h error_length
  intro type input h
  apply packetBody_length h

theorem waitStart_length {input rest : List Byte} {mark : Bool}
    (h : waitStart input = some (mark, rest)) :
  rest.length < input.length
  := by
  induction input with
  | nil => cases h
  | cons c input ih =>
    rw [List.length_cons]
    simp only [waitStart] at h
    split at h
    · cases h
      omega
    · split at h
      · cases h
        omega
      · apply Nat.lt_succ_of_lt (ih h)

/-- Every round reads the mark of its packet, so that the loop never runs out of fuel. -/
theorem kLoop_fuel {fuel fuel' : ℕ} {input : List Byte} (h : input.length < fuel)
    (h' : input.length < fuel') :
  kLoop start fuel s input = kLoop start fuel' s input
  := by
  induction fuel generalizing fuel' s input with
  | zero => cases h
  | succ fuel ih =>
    cases fuel' with
    | zero => cases h'
    | succ fuel' =>
      rw [kLoop, kLoop]
      split
      · rfl
      · rfl
      case h_3 input' hwait =>
        have hlength := waitStart_length hwait
        split
        · rfl
        case h_2 event s' rest hpacket =>
          have hrest := packet_length hpacket
          simp only at hrest
          rw [ih (by omega) (show rest.length < fuel' by omega)]

/-! ### An undamaged packet -/

/-- A packet as it is sent, behind its mark. -/
def frame (n : ℕ) (type : Byte) (field : List Byte) : List Byte :=
  let header := tochar (field.length + 3) :: tochar n :: type :: field
  header ++ [checkChar (header.map UInt8.toNat).sum, endChar]

theorem untochar_tochar {n : ℕ} (h : n ≤ 94) :
  untochar (tochar n) = n
  := by
  have hsum : (UInt8.ofNat (n + 0x20)).toNat = n + 0x20 := by
    rw [UInt8.toNat_ofNat']
    omega
  rw [untochar, tochar, UInt8.toNat_sub, hsum, show (0x20 : Byte).toNat = 0x20 from rfl]
  omega

theorem tochar_printable {n : ℕ} (h : n ≤ 94) :
  tochar n &&& 0xe0 ≠ 0
  := by
  revert n
  decide +kernel

theorem checkChar_printable (sum : ℕ) :
  checkChar sum &&& 0xe0 ≠ 0
  := by
  apply tochar_printable
  have := Nat.and_le_right (n := sum + (sum >>> 6 &&& 0x03)) (m := 0x3f)
  omega

theorem getc_printable {β : Type*} {c : Byte} (h : c &&& 0xe0 ≠ 0) (input : List Byte)
    (error : List Byte → Option β) (next : Byte → List Byte → Option β) :
  getc (c :: input) error next = next c input
  := if_neg h

/-- A field that is followed by its check character is read to its end. -/
theorem dataField_frame {field : List Byte} (h : ∀ c ∈ field, c &&& 0xe0 ≠ 0) (s : Recv) (sum : ℕ)
    (before rest : List Byte) :
  dataField field.length s sum before
      (field ++ checkChar (sum + (field.map UInt8.toNat).sum) :: endChar :: rest)
    = some (.accepted (s.fields field).n (s.fields field).kState (before ++ field),
        if (s.fields field).kState = sendType then (s.fields field).handleSendPacket
        else s.fields field,
        rest)
  := by
  induction field generalizing s sum before with
  | nil =>
    rw [List.length_nil, dataField, trailer, List.nil_append, getc_printable (checkChar_printable _)]
    rw [if_neg (by simp), List.append_nil]
    rfl
  | cons c field ih =>
    rw [List.forall_mem_cons] at h
    rw [List.length_cons, dataField, List.cons_append, getc_printable h.1]
    rw [List.map_cons, List.sum_cons, ← Nat.add_assoc, ih h.2, List.append_assoc]
    rfl

/-- **A packet that arrives as it was sent is acknowledged.** -/
theorem packet_frame {n : ℕ} {type : Byte} {field : List Byte} (hn : n < 64)
    (htype : type &&& 0xe0 ≠ 0) (hfield : ∀ c ∈ field, c &&& 0xe0 ≠ 0)
    (hlength : field.length ≤ 91) (s : Recv) (rest : List Byte) :
  packet s (frame n type field ++ rest)
    = some (.accepted n type field,
        if type = sendType then (((s.checkpoint n).withType type).fields field).handleSendPacket
        else ((s.checkpoint n).withType type).fields field,
        rest)
  := by
  have hlen : field.length + 3 ≤ 94 := by omega
  have hseq : n ≤ 94 := by omega
  rw [packet, frame]
  simp only [List.cons_append, List.append_assoc, List.nil_append, getc_printable htype,
    getc_printable (tochar_printable hlen), getc_printable (tochar_printable hseq),
    untochar_tochar hlen, untochar_tochar hseq, packetBody]
  rw [if_neg (by omega)]
  rw [show ((((field.length + 3 : ℕ) : ℤ) - 2 - 1).toNat) = field.length by omega]
  simp only [List.map_cons, List.sum_cons, ← Nat.add_assoc]
  rw [dataField_frame hfield, (sameFrame_fields _ _).n, (sameFrame_fields _ _).kState]
  rw [show ((s.checkpoint n).withType type).n = n from (checkpoint_spec s n).1]
  rfl

end Kermit
