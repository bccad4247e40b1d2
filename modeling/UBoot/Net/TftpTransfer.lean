import UBoot.Lib.Run
import UBoot.Net.Tftp

/-!
# Transferring a file by TFTP

The server is in lock step with the client: it sends the next block when the block before it
was acknowledged.  The network loses, delays and duplicates the packets of the server, so that
at any time the client may get any packet that was sent so far, or a timeout.
-/

namespace Tftp

/-! ### The server -/

/-- The options of the request other than `blksize`. -/
inductive Opt where
  | timeout
  | tsize

/-- The name of an option. -/
def Opt.name : Opt → String
  | .timeout => "timeout"
  | .tsize => "tsize"

/-- An option with its value, as it is sent. -/
def optionBytes (name : String) (value : ℕ) : List Byte := cstring name ++ decimal value ++ [0]

/-- Some options, one after the other. -/
def optionsBytes (opts : List (Opt × ℕ)) : List Byte :=
  opts.flatMap fun o => optionBytes o.1.name o.2

/-- The options that a server acknowledges, among them at most one block size. -/
structure Oack where
  before : List (Opt × ℕ)
  blksize : Option ℕ
  after : List (Opt × ℕ)

/-- What comes behind the opcode of the acknowledgement of the options. -/
def Oack.options (o : Oack) : List Byte :=
  optionsBytes o.before ++ o.blksize.elim [] (optionBytes "blksize") ++ optionsBytes o.after

/-- A server with the file that it sends, which acknowledges the options or ignores them. -/
structure Server where
  file : List Byte
  port : ℕ
  oack : Option Oack
  length_file : file.length < 2 ^ 32
  blksize_range : ∀ o ∈ oack, ∀ b ∈ o.blksize, 8 ≤ b ∧ b ≤ 65464

namespace Server

/-- The block size that was agreed on. -/
def blkSize (srv : Server) : ℕ := (srv.oack.bind Oack.blksize).getD tftpBlockSize

/-- The number of blocks; the last one is shorter than the others, and may be empty. -/
def blocks (srv : Server) : ℕ := srv.file.length / srv.blkSize + 1

/-- The block `j`, where the first one is `1`. -/
def block (srv : Server) (j : ℕ) : List Byte :=
  (srv.file.drop ((j - 1) * srv.blkSize)).take srv.blkSize

/-- The packet with the block `j`. -/
def dataPacket (srv : Server) (j : ℕ) : List Byte :=
  halfBytes opData ++ halfBytes (j % tftpSequenceSize) ++ srv.block j

end Server

/-- The acknowledgement of the block `j`, or of the options when `j` is `0`. -/
def ackPacket (j : ℕ) : List Byte := halfBytes opAck ++ halfBytes (j % tftpSequenceSize)

/-! ### The transfer -/

/-- A client and a server: `sent` is the number of blocks that were sent, `acked` says that the
last one of them was acknowledged since, and `got` is the number of blocks that were accepted. -/
structure System where
  client : Client
  sent : ℕ
  acked : Bool
  got : ℕ

/-- What happens next, with the memory behind the packet that arrives. -/
inductive Event where
  | send
  | oack (rest : List Byte)
  | data (j : ℕ) (rest : List Byte)
  | timeout

/-- The start of a transfer. -/
def System.start (c : Client) (ourPort rrqTimeoutCountMax : ℕ) : System where
  client := tftpStart c ourPort rrqTimeoutCountMax
  sent := 0
  acked := false
  got := 0

/-- The client reacts, and the server may get its acknowledgement. -/
def System.react (s : System) (r : Reaction) : System :=
  { s with client := r.1, acked := s.acked || decide (r.2 = some (ackPacket s.sent)) }

/-- A packet of the server arrives. -/
def System.deliver (srv : Server) (s : System) (pkt rest : List Byte) : System :=
  s.react (tftpHandler s.client (pkt ++ rest) s.client.tftpOurPort srv.port pkt.length)

/-- The steps of a transfer.  None is made once the client starts again or gives up. -/
def step (srv : Server) (s : System) (e : Event) : Option System :=
  if s.client.netState = .startAgain ∨ s.client.netState = .netloopFail then none
  else
    match e with
    | .send =>
      -- the first block answers the request, unless there is an acknowledgement of the options
      if (s.acked ∨ s.sent = 0 ∧ srv.oack.isNone) ∧ s.sent < srv.blocks then
        some { s with sent := s.sent + 1, acked := false }
      else none
    | .oack rest => srv.oack.map fun o => s.deliver srv (halfBytes opOack ++ o.options) rest
    | .data j rest =>
      if 1 ≤ j ∧ j ≤ s.sent then
        some { s.deliver srv (srv.dataPacket j) rest with got := if j = s.got + 1 then j else s.got }
      else none
    | .timeout => some (s.react (tftpTimeout s.client))

/-- The event brings a packet again that was accepted before. -/
def Duplicate (s : System) : Event → Prop
  | .oack _ => s.client.tftpState ≠ .rrq
  | .data j _ => j ≤ s.got
  | _ => False

/-- A packet that the client takes for what it is: the options are not acknowledged again once
there was data, and a block that comes again is not one with the number 0, and it is one since
the number wrapped around last, unless it has the number of the last one. -/
def Harmless (s : System) : Event → Prop
  | .oack _ => s.client.tftpState = .rrq ∨ s.client.tftpState = .oack
  | .data j _ =>
    j ≤ s.got →
      j % tftpSequenceSize ≠ 0
        ∧ (j / tftpSequenceSize = s.got / tftpSequenceSize
          ∨ j % tftpSequenceSize = s.client.tftpLastBlock)
  | _ => True

/-- When the transfer has succeeded, the file is in memory. -/
def Complete (srv : Server) (c : Client) : Prop :=
  c.netState = .netloopSuccess →
    AddressSpace.Contains c.mem c.loadAddr srv.file
      ∧ c.netBootFileXferSize.toNat = srv.file.length

/-- The transfer goes on or has succeeded. -/
def GoesOn (c c' : Client) : Prop := c'.netState = c.netState ∨ c'.netState = .netloopSuccess

/-- Nothing that was stored is changed, the client is in the same state of the protocol, and the
transfer goes on or has succeeded. -/
structure Undisturbed (c c' : Client) : Prop where
  mem : c'.mem = c.mem
  loadAddr : c'.loadAddr = c.loadAddr
  netBootFileXferSize : c'.netBootFileXferSize = c.netBootFileXferSize
  tftpBlockWrapOffset : c'.tftpBlockWrapOffset = c.tftpBlockWrapOffset
  tftpState : c'.tftpState = c.tftpState
  tftpServerPort : c'.tftpServerPort = c.tftpServerPort
  tftpBlkSize : c'.tftpBlkSize = c.tftpBlkSize
  goesOn : GoesOn c c'

/-! ### The block size -/

/-- The digits of a number are read as the number. -/
theorem strtoulDigits_decimalLoop {fuel n : ℕ} (hfuel : n < fuel) (hn : n < 2 ^ 32)
    (acc : List Byte) :
  Env.strtoulDigits 10 0 (decimalLoop fuel n acc) = Env.strtoulDigits 10 n acc
  := by
  have hdigit : ∀ r d, d < 10 → r * 10 + d < 2 ^ 32 → ∀ acc,
      Env.strtoulDigits 10 r (UInt8.ofNat (48 + d) :: acc) = Env.strtoulDigits 10 (r * 10 + d) acc := by
    intro r d hd hr acc
    have htoNat : (UInt8.ofNat (48 + d)).toNat = 48 + d := by
      rw [UInt8.toNat_ofNat']
      omega
    have hx : Env.xdigit (UInt8.ofNat (48 + d)) = some d := by
      rw [Env.xdigit, htoNat, if_pos (by omega)]
      congr 1
      omega
    simp only [Env.strtoulDigits, hx]
    rw [if_pos hd, Nat.mod_eq_of_lt hr]
  induction fuel generalizing n acc with
  | zero => omega
  | succ fuel ih =>
    rw [decimalLoop]
    split
    case isTrue hlt =>
      rw [hdigit 0 n hlt (by omega)]
      simp
    case isFalse hge =>
      rw [ih (by omega) (by omega), hdigit _ _ (by omega) (by omega)]
      congr 1
      omega

theorem mem_decimalLoop {fuel n : ℕ} {acc : List Byte} {x : Byte} (h : x ∈ decimalLoop fuel n acc) :
  x ∈ acc ∨ 48 ≤ x.toNat ∧ x.toNat ≤ 57
  := by
  have hdigit : ∀ d, d < 10 → 48 ≤ (UInt8.ofNat (48 + d)).toNat ∧ (UInt8.ofNat (48 + d)).toNat ≤ 57 := by
    intro d hd
    rw [UInt8.toNat_ofNat']
    omega
  induction fuel generalizing n acc with
  | zero => exact .inl h
  | succ fuel ih =>
    rw [decimalLoop] at h
    split at h
    case isTrue hlt =>
      rcases List.mem_cons.mp h with rfl | h
      · exact .inr (hdigit n hlt)
      · exact .inl h
    case isFalse hge =>
      rcases ih h with h | h
      · rcases List.mem_cons.mp h with rfl | h
        · exact .inr (hdigit _ (Nat.mod_lt _ (by decide)))
        · exact .inl h
      · exact .inr h

/-- A number does not start with a zero. -/
theorem decimalLoop_eq_cons {fuel n : ℕ} (hfuel : n < fuel) (hn : 0 < n) (acc : List Byte) :
  ∃ c rest, decimalLoop fuel n acc = c :: rest ∧ c ≠ 48
  := by
  induction fuel generalizing n acc with
  | zero => omega
  | succ fuel ih =>
    rw [decimalLoop]
    split
    case isTrue hlt =>
      refine ⟨_, _, rfl, ?_⟩
      intro heq
      have htoNat := congrArg UInt8.toNat heq
      rw [UInt8.toNat_ofNat', show (48 : Byte).toNat = 48 from rfl] at htoNat
      omega
    case isFalse hge => apply ih (by omega) (by omega)

theorem decimalLoop_append (fuel n : ℕ) (acc rest : List Byte) :
  decimalLoop fuel n acc ++ rest = decimalLoop fuel n (acc ++ rest)
  := by
  induction fuel generalizing n acc with
  | zero => rfl
  | succ fuel ih =>
    rw [decimalLoop, decimalLoop]
    split
    · rfl
    · rw [ih]
      rfl

/-- `simple_strtoul` reads what `sprintf` printed. -/
theorem simpleStrtoul_decimal {n : ℕ} (hpos : 0 < n) (hn : n < 2 ^ 32) (rest : List Byte) :
  (Env.simpleStrtoul (decimal n ++ 0 :: rest) 10).1 = n
  := by
  have hdigits : Env.strtoulDigits 10 0 (decimal n ++ 0 :: rest) = (n, 0 :: rest) := by
    rw [decimal, decimalLoop_append, strtoulDigits_decimalLoop (Nat.lt_succ_self n) hn]
    rfl
  obtain ⟨c, digits, hcons, hc⟩ := decimalLoop_eq_cons (Nat.lt_succ_self n) hpos []
  rw [decimal, hcons, List.cons_append] at hdigits ⊢
  rw [Env.simpleStrtoul.eq_3, hdigits]
  · rintro _ _ heq
    apply hc (List.cons.inj heq).1
  · rintro _ heq
    apply hc (List.cons.inj heq).1

/-- The letter that `blksize` starts with. -/
def charB : Byte := 0x62

/-- The loop does not stop where there is no such letter. -/
theorem blksizeLoop_skip {pre : List Byte} (h : charB ∉ pre) (n : ℕ) (rest : List Byte) (b : ℕ) :
  blksizeLoop (pre.length + n) (pre ++ rest) b = blksizeLoop n rest b
  := by
  induction pre with
  | nil => rw [List.length_nil, Nat.zero_add, List.nil_append]
  | cons c pre ih =>
    rw [List.mem_cons, not_or] at h
    have hne : ((c :: pre) ++ rest).take 8 ≠ cstring "blksize" := by
      intro heq
      apply h.1
      apply (List.cons.inj heq).1.symm
    rw [List.length_cons, show pre.length + 1 + n = pre.length + n + 1 by omega, blksizeLoop,
      if_neg hne]
    apply ih h.2

theorem blksizeLoop_skip_le {pre : List Byte} (h : charB ∉ pre) {n : ℕ} (hn : n ≤ pre.length)
    (rest : List Byte) (b : ℕ) :
  blksizeLoop n (pre ++ rest) b = b
  := by
  have htake : charB ∉ pre.take n := fun hmem => h (List.mem_of_mem_take hmem)
  have hskip := blksizeLoop_skip htake 0 (pre.drop n ++ rest) b
  rw [← List.append_assoc, List.take_append_drop, List.length_take, Nat.min_eq_left hn] at hskip
  rw [Nat.add_zero] at hskip
  rw [hskip]
  rfl

theorem charB_notMem_optionsBytes (opts : List (Opt × ℕ)) :
  charB ∉ optionsBytes opts
  := by
  intro hmem
  obtain ⟨⟨opt, n⟩, -, hmem⟩ := List.mem_flatMap.mp hmem
  have hname : charB ∉ cstring opt.name := by
    cases opt
    · decide
    · decide
  rcases List.mem_append.mp hmem with hmem | hmem
  · rcases List.mem_append.mp hmem with hmem | hmem
    · apply hname hmem
    · rcases mem_decimalLoop hmem with hmem | hrange
      · cases hmem
      · revert hrange
        decide
  · revert hmem
    decide

/-- The client reads the block size that the server agreed to. -/
theorem blksizeLoop_options (o : Oack) (h : ∀ b ∈ o.blksize, 8 ≤ b ∧ b ≤ 65464)
    (rest : List Byte) (b : ℕ) :
  blksizeLoop (o.options.length - 8) (o.options ++ rest) b = o.blksize.getD b
  := by
  obtain ⟨before, blksize, after⟩ := o
  cases blksize with
  | none =>
    apply blksizeLoop_skip_le _ (Nat.sub_le _ _)
    rw [Oack.options, List.mem_append, List.mem_append, not_or, not_or]
    exact ⟨⟨charB_notMem_optionsBytes _, List.not_mem_nil⟩, charB_notMem_optionsBytes _⟩
  | some n =>
    obtain ⟨hmin, hmax⟩ := h n rfl
    -- the characters that the loop goes over behind the letter
    have htail : charB ∉ (cstring "blksize").tail ++ decimal n ++ [0] ++ optionsBytes after := by
      simp only [List.mem_append, not_or]
      refine ⟨⟨⟨by decide, ?_⟩, by decide⟩, charB_notMem_optionsBytes _⟩
      intro hmem
      rcases mem_decimalLoop hmem with hmem | hrange
      · cases hmem
      · revert hrange
        decide
    have hoptions : (⟨before, some n, after⟩ : Oack).options ++ rest
        = optionsBytes before ++ (charB :: ((cstring "blksize").tail ++ decimal n ++ [0]
          ++ optionsBytes after) ++ rest) := by
      simp only [Oack.options, Option.elim, optionBytes, List.append_assoc, List.cons_append]
      rfl
    have hlength : (⟨before, some n, after⟩ : Oack).options.length - 8
        = (optionsBytes before).length + ((decimal n ++ [0] ++ optionsBytes after).length - 1 + 1) := by
      simp only [Oack.options, Option.elim, optionBytes, List.length_append, List.length_cons,
        List.length_nil]
      rw [show (cstring "blksize").length = 8 from rfl]
      omega
    rw [hoptions, hlength, blksizeLoop_skip (charB_notMem_optionsBytes _), blksizeLoop,
      List.cons_append, List.tail_cons, blksizeLoop_skip_le htail]
    · rw [if_pos]
      · have hdrop : (charB :: ((cstring "blksize").tail ++ decimal n ++ [0] ++ optionsBytes after
            ++ rest)).drop 8 = decimal n ++ 0 :: (optionsBytes after ++ rest) := by
          simp only [List.append_assoc]
          rfl
        rw [hdrop, simpleStrtoul_decimal (by omega) (by omega), Option.getD_some]
        omega
      · simp only [List.append_assoc]
        rfl
    · simp only [List.length_append, List.length_cons, List.length_nil]
      omega

/-! ### The blocks -/

namespace Server

variable (srv : Server)

theorem blkSize_range :
  8 ≤ srv.blkSize ∧ srv.blkSize ≤ 65464
  := by
  rw [blkSize]
  cases ho : srv.oack with
  | none => decide
  | some o =>
    rw [Option.bind_some]
    cases hb : o.blksize with
    | none => decide
    | some b => apply srv.blksize_range o ho b hb

theorem blkSize_pos :
  0 < srv.blkSize
  := by
  have := srv.blkSize_range
  omega

/-- Before the last block, the blocks are full. -/
theorem mul_le_of_lt {srv : Server} {j : ℕ} (h : j < srv.blocks) :
  j * srv.blkSize ≤ srv.file.length
  := by
  apply le_trans (Nat.mul_le_mul_right _ (Nat.le_of_lt_succ h))
  apply Nat.div_mul_le_self

theorem lt_blocks_mul :
  srv.file.length < srv.blocks * srv.blkSize
  := by
  rw [Nat.mul_comm]
  apply Nat.lt_mul_div_succ _ srv.blkSize_pos

theorem length_block (j : ℕ) :
  (srv.block j).length = min srv.blkSize (srv.file.length - (j - 1) * srv.blkSize)
  := by
  rw [block, List.length_take, List.length_drop]

variable {srv} {j : ℕ}

/-- The file up to a block, and the block. -/
theorem take_append_block (h : 1 ≤ j) :
  srv.file.take ((j - 1) * srv.blkSize) ++ srv.block j = srv.file.take (j * srv.blkSize)
  := by
  rw [block, ← List.take_add, ← Nat.succ_mul, Nat.succ_eq_add_one, Nat.sub_add_cancel h]

theorem length_take_block (h : 1 ≤ j) (hj : j ≤ srv.blocks) :
  (j - 1) * srv.blkSize + (srv.block j).length = min (j * srv.blkSize) srv.file.length
  := by
  have hle : (j - 1) * srv.blkSize ≤ srv.file.length := mul_le_of_lt (by omega)
  have hmul : j * srv.blkSize = (j - 1) * srv.blkSize + srv.blkSize := by
    rw [← Nat.succ_mul, Nat.succ_eq_add_one, Nat.sub_add_cancel h]
  rw [length_block]
  omega

/-- Only the last block is short. -/
theorem length_block_lt_iff (h : 1 ≤ j) (hj : j ≤ srv.blocks) :
  (srv.block j).length < srv.blkSize ↔ j = srv.blocks
  := by
  have hlength := length_take_block h hj
  have hmul : j * srv.blkSize = (j - 1) * srv.blkSize + srv.blkSize := by
    rw [← Nat.succ_mul, Nat.succ_eq_add_one, Nat.sub_add_cancel h]
  constructor
  · intro hlt
    apply le_antisymm hj
    by_contra hne
    have hlt' : j < srv.blocks := by omega
    have := mul_le_of_lt hlt'
    omega
  · rintro rfl
    have := srv.lt_blocks_mul
    omega

end Server

/-- The place of a block, from its number and the wraps before it. -/
theorem offset_eq {j : ℕ} (h : 1 ≤ j) (b : ℕ) :
  (BitVec.ofNat 32 (j % tftpSequenceSize) - 1) * BitVec.ofNat 32 b
      + BitVec.ofNat 32 (j / tftpSequenceSize * tftpSequenceSize * b)
    = BitVec.ofNat 32 ((j - 1) * b)
  := by
  have hpred : BitVec.ofNat 32 ((j - 1) * b) + BitVec.ofNat 32 b = BitVec.ofNat 32 (j * b) := by
    rw [← BitVec.ofNat_add, ← Nat.succ_mul, Nat.succ_eq_add_one, Nat.sub_add_cancel h]
  have hdiv : j * b = (j / tftpSequenceSize * tftpSequenceSize + j % tftpSequenceSize) * b := by
    rw [Nat.mul_comm (j / tftpSequenceSize), Nat.div_add_mod]
  rw [hdiv, Nat.add_mul, BitVec.ofNat_add] at hpred
  simp only [BitVec.ofNat_mul] at hpred ⊢
  grind

/-! ### A block -/

variable {srv : Server} {c : Client} {j k : ℕ}

/-- The first `k` blocks are stored. -/
structure Stored (srv : Server) (k : ℕ) (c : Client) : Prop where
  contains : AddressSpace.Contains c.mem c.loadAddr (srv.file.take (k * srv.blkSize))
  size : c.netBootFileXferSize = BitVec.ofNat 32 (min (k * srv.blkSize) srv.file.length)

/-- The client is about to accept the block `j`. -/
structure Ready (srv : Server) (j : ℕ) (c : Client) : Prop where
  tftpState : c.tftpState = .data
  tftpBlkSize : c.tftpBlkSize = srv.blkSize
  tftpBlock : c.tftpBlock = j % tftpSequenceSize
  tftpBlockWrapOffset :
    c.tftpBlockWrapOffset
      = BitVec.ofNat 32 (j / tftpSequenceSize * tftpSequenceSize * srv.blkSize)

/-- The client that has accepted the block `j`, but for the end of the transfer. -/
def accepted (srv : Server) (j : ℕ) (c : Client) : Client :=
  { c with
    tftpLastBlock := c.tftpBlock
    tftpTimeoutCountMax := timeoutCount
    mem := AddressSpace.copy c.mem (c.loadAddr + BitVec.ofNat 32 ((j - 1) * srv.blkSize))
      (srv.block j)
    netBootFileXferSize :=
      if c.netBootFileXferSize
          < BitVec.ofNat 32 ((j - 1) * srv.blkSize + (srv.block j).length) then
        BitVec.ofNat 32 ((j - 1) * srv.blkSize + (srv.block j).length)
      else c.netBootFileXferSize
    netState :=
      if (srv.block j).length < srv.blkSize then .netloopSuccess else c.netState }

/-- The transfer ends with a short block. -/
theorem accepted_netState (srv : Server) (j : ℕ) (c : Client) :
  (srv.block j).length < srv.blkSize ∧ (accepted srv j c).netState = .netloopSuccess
    ∨ ¬ (srv.block j).length < srv.blkSize ∧ (accepted srv j c).netState = c.netState
  := by
  by_cases hshort : (srv.block j).length < srv.blkSize
  · exact .inl ⟨hshort, if_pos hshort⟩
  · exact .inr ⟨hshort, if_neg hshort⟩

theorem acceptBlock_of_ne (h : Ready srv j c) (hj : 1 ≤ j) (hne : c.tftpBlock ≠ c.tftpLastBlock)
    (rest : List Byte) :
  acceptBlock c (halfBytes (j % tftpSequenceSize) ++ (srv.block j ++ rest)) (srv.block j).length
    = (accepted srv j c, some (ackPacket j))
  := by
  have hoffset := offset_eq hj srv.blkSize
  have hdrop : (halfBytes (j % tftpSequenceSize) ++ (srv.block j ++ rest)).drop 2
      = srv.block j ++ rest := rfl
  rw [acceptBlock, if_neg hne]
  simp only [storeBlock, h.tftpBlkSize, h.tftpBlockWrapOffset, hdrop, List.take_left]
  simp only [tftpSend, h.tftpState, h.tftpBlock, hoffset, ← BitVec.ofNat_add]
  simp only [accepted, h.tftpBlock, h.tftpState, ackPacket, h.tftpBlkSize, h.tftpBlockWrapOffset]

/-- A block that is the next one. -/
theorem stored_accepted (h : Stored srv (j - 1) c) (hj : 1 ≤ j) (hblocks : j ≤ srv.blocks) :
  Stored srv j (accepted srv j c)
  := by
  have hfile := srv.length_file
  have hlength := Server.length_take_block hj hblocks
  have hle : (j - 1) * srv.blkSize ≤ srv.file.length := Server.mul_le_of_lt (by omega)
  constructor
  · have hcontains := h.contains.copy_append (srv.block j) (by
      rw [List.length_take, Nat.min_eq_left hle, hlength]
      omega)
    rw [List.length_take, Nat.min_eq_left hle, Server.take_append_block hj] at hcontains
    apply hcontains
  · rw [← hlength]
    simp only [accepted, h.size, Nat.min_eq_left hle, BitVec.lt_def, BitVec.toNat_ofNat]
    split
    · rfl
    · congr 1
      omega

/-- A block that is stored already changes nothing. -/
theorem accepted_stored (h : Stored srv k c) (hj : 1 ≤ j) (hk : j ≤ k) (hblocks : k ≤ srv.blocks) :
  (accepted srv j c).mem = c.mem
    ∧ (accepted srv j c).netBootFileXferSize = c.netBootFileXferSize
  := by
  have hfile := srv.length_file
  have hlength := Server.length_take_block hj (hk.trans hblocks)
  have hle : (j - 1) * srv.blkSize ≤ srv.file.length := Server.mul_le_of_lt (by omega)
  have hmul : j * srv.blkSize ≤ k * srv.blkSize := Nat.mul_le_mul_right _ hk
  constructor
  · apply AddressSpace.Contains.copy_eq
    -- the block is a part of what is stored
    have hsplit : srv.file.take (k * srv.blkSize)
        = srv.file.take ((j - 1) * srv.blkSize) ++ srv.block j
          ++ (srv.file.drop (j * srv.blkSize)).take (k * srv.blkSize - j * srv.blkSize) := by
      rw [Server.take_append_block hj, ← List.take_add, Nat.add_sub_cancel' hmul]
    have hcontains := h.contains
    rw [hsplit] at hcontains
    have hdrop := hcontains.of_append.drop
    rwa [List.length_take, Nat.min_eq_left hle] at hdrop
  · apply if_neg
    rw [h.size, hlength, BitVec.lt_def, BitVec.toNat_ofNat, BitVec.toNat_ofNat]
    omega

/-! ### The invariant -/

/-- There was no data yet. -/
structure Waiting (srv : Server) (s : System) : Prop where
  got : s.got = 0
  tftpBlock : s.client.tftpBlock = 0
  tftpState :
    s.client.tftpState = .rrq ∧ s.client.tftpBlkSize = tftpBlockSize ∧ s.acked = false
        ∧ (srv.oack.isSome → s.sent = 0)
      ∨ s.client.tftpState = .oack ∧ s.client.tftpBlkSize = srv.blkSize
        ∧ s.client.tftpServerPort = srv.port

/-- The blocks up to `got` are there, and the last one that was accepted is `last`. -/
structure Receiving (srv : Server) (got last : ℕ) (c : Client) : Prop where
  tftpState : c.tftpState = .data
  tftpServerPort : c.tftpServerPort = srv.port
  tftpBlkSize : c.tftpBlkSize = srv.blkSize
  tftpBlockWrapOffset :
    c.tftpBlockWrapOffset
      = BitVec.ofNat 32 (got / tftpSequenceSize * tftpSequenceSize * srv.blkSize)
  tftpBlock : c.tftpBlock = last % tftpSequenceSize
  tftpLastBlock : c.tftpLastBlock = last % tftpSequenceSize
  last_pos : 1 ≤ last
  last_le : last ≤ got
  last_div : last / tftpSequenceSize = got / tftpSequenceSize
  last_mod : last % tftpSequenceSize = 0 → last = got

/-- The invariant of a transfer. -/
structure Inv (srv : Server) (s : System) : Prop where
  sent_le : s.sent ≤ srv.blocks
  got_le : s.got ≤ s.sent
  sent_le_got : s.sent ≤ s.got + 1
  acked : s.acked → s.got = s.sent
  client : Waiting srv s ∨ ∃ last, Receiving srv s.got last s.client
  stored : Stored srv s.got s.client
  success : s.client.netState = .netloopSuccess → s.got = srv.blocks

theorem inv_start (srv : Server) (c : Client) (ourPort rrqTimeoutCountMax : ℕ) :
  Inv srv (.start c ourPort rrqTimeoutCountMax)
  where
  sent_le := Nat.zero_le _
  got_le := le_refl _
  sent_le_got := Nat.zero_le _
  acked := nofun
  client := .inl ⟨rfl, rfl, .inl ⟨rfl, rfl, rfl, fun _ => rfl⟩⟩
  stored := by
    constructor
    · rw [show (System.start c ourPort rrqTimeoutCountMax).got = 0 from rfl, Nat.zero_mul,
        List.take_zero]
      apply AddressSpace.contains_nil
    · rw [show (System.start c ourPort rrqTimeoutCountMax).got = 0 from rfl, Nat.zero_mul,
        Nat.zero_min]
      rfl
  success := nofun

/-- The end of the transfer. -/
theorem Inv.complete {s : System} (h : Inv srv s) :
  Complete srv s.client
  := by
  intro hsuccess
  have hgot := h.success hsuccess
  have hlt := srv.lt_blocks_mul
  have hstored := h.stored
  rw [hgot] at hstored
  constructor
  · rw [← List.take_of_length_le hlt.le]
    apply hstored.contains
  · rw [hstored.size, Nat.min_eq_right hlt.le, BitVec.toNat_ofNat, Nat.mod_eq_of_lt srv.length_file]

/-- The client acknowledges only what it has. -/
theorem Receiving.ack_eq {got last sent : ℕ} (h : Receiving srv got last c) (hgot : got ≤ sent)
    (hsent : sent ≤ got + 1) (hack : ackPacket last = ackPacket sent) :
  got = sent
  := by
  have hmod : last % tftpSequenceSize = sent % tftpSequenceSize := by
    apply halfBytes_injective (Nat.mod_lt _ (by decide)) (Nat.mod_lt _ (by decide))
    apply List.append_cancel_left hack
  have hle := h.last_le
  have hdiv := h.last_div
  have hzero := h.last_mod
  simp only [tftpSequenceSize] at hmod hdiv hzero
  omega

theorem Inv.send {s : System} (h : Inv srv s)
    (hack : s.acked ∨ s.sent = 0 ∧ srv.oack.isNone) (hlt : s.sent < srv.blocks) :
  Inv srv { s with sent := s.sent + 1, acked := false }
  := by
  have hgot : s.got = s.sent := by
    rcases hack with hack | ⟨hzero, -⟩
    · apply h.acked hack
    · have := h.got_le
      omega
  refine ⟨hlt, ?_, ?_, nofun, ?_, h.stored, h.success⟩
  · rw [hgot]
    apply Nat.le_succ
  · rw [hgot]
  · rcases h.client with hwaiting | hreceiving
    · refine .inl ⟨hwaiting.got, hwaiting.tftpBlock, ?_⟩
      rcases hwaiting.tftpState with ⟨hstate, hsize, hnack, -⟩ | hoack
      · -- only a server without options sends before it gets an acknowledgement
        refine .inl ⟨hstate, hsize, rfl, ?_⟩
        rw [hnack] at hack
        intro hsome
        rw [Option.isSome_iff_ne_none] at hsome
        simp [hsome] at hack
      · exact .inr hoack
    · exact .inr hreceiving

theorem ackPacket_ne_rrq (hc : c.tftpState = .rrq) :
  tftpSend c ≠ ackPacket j
  := by
  intro heq
  simp only [tftpSend, hc, ackPacket, List.append_assoc] at heq
  have hop := congrArg bytesHalf heq
  rw [bytesHalf_halfBytes (by decide), bytesHalf_halfBytes (by decide)] at hop
  cases hop

theorem tftpSend_timeoutCount (c : Client) (n : ℕ) :
  tftpSend { c with tftpTimeoutCount := n } = tftpSend c
  := rfl

theorem tftpSend_eq (hc : c.tftpState = .oack ∨ c.tftpState = .data)
    (hblock : c.tftpBlock = j % tftpSequenceSize) :
  tftpSend c = ackPacket j
  := by
  rcases hc with hc | hc
  · simp only [tftpSend, hc, hblock, ackPacket]
  · simp only [tftpSend, hc, hblock, ackPacket]

/-- Before there is data, the acknowledgement of the options is the only one. -/
theorem ack_zero {sent : ℕ} (hsent : sent ≤ 1) (h : ackPacket 0 = ackPacket sent) :
  sent = 0
  := by
  have hmod : 0 % tftpSequenceSize = sent % tftpSequenceSize := by
    apply halfBytes_injective (Nat.mod_lt _ (by decide)) (Nat.mod_lt _ (by decide))
    apply List.append_cancel_left h
  simp only [tftpSequenceSize] at hmod
  omega

theorem tftpHandler_oack (o : Oack) (rest : List Byte)
    (hport : c.tftpState ≠ .rrq → c.tftpServerPort = srv.port) :
  tftpHandler c (halfBytes opOack ++ o.options ++ rest) c.tftpOurPort srv.port
      (halfBytes opOack ++ o.options).length
    = handleOack c (o.options ++ rest) srv.port o.options.length
  := by
  have hop : bytesHalf (halfBytes opOack ++ o.options ++ rest) = opOack := by
    rw [List.append_assoc]
    apply bytesHalf_halfBytes (by decide)
  have hlen : (halfBytes opOack ++ o.options).length = o.options.length + 2 := by
    rw [List.length_append, length_halfBytes, Nat.add_comm]
  rw [tftpHandler, if_neg (not_not.mpr rfl), if_neg, hlen, if_neg (by omega), if_pos hop]
  · rfl
  · rintro ⟨hstate, hne⟩
    apply hne (hport hstate).symm

/-- The client behind an acknowledgement of the options. -/
theorem handleOack_eq {o : Oack} (ho : srv.oack = some o)
    (hsize : c.tftpBlkSize = tftpBlockSize ∨ c.tftpBlkSize = srv.blkSize)
    (hblock : c.tftpBlock = 0) (rest : List Byte) :
  handleOack c (o.options ++ rest) srv.port o.options.length
    = ({ c with tftpState := .oack, tftpServerPort := srv.port, tftpBlkSize := srv.blkSize },
        some (ackPacket 0))
  := by
  have hblk : srv.blkSize = o.blksize.getD tftpBlockSize := by
    rw [Server.blkSize, ho, Option.bind_some]
  have hloop : blksizeLoop (o.options.length - 8) (o.options ++ rest) c.tftpBlkSize = srv.blkSize := by
    rw [blksizeLoop_options o (srv.blksize_range o ho), hblk]
    rcases hsize with hsize | hsize
    · rw [hsize]
    · rw [hsize, hblk]
      cases o.blksize <;> rfl
  rw [handleOack, hloop]
  have hsend := tftpSend_eq (j := 0) (c := { c with
    tftpState := .oack, tftpServerPort := srv.port, tftpBlkSize := srv.blkSize }) (.inl rfl) hblock
  exact congrArg (fun p => (_, some p)) hsend

theorem Inv.oack {s : System} {o : Oack} (h : Inv srv s) (ho : srv.oack = some o)
    (hstate : s.client.tftpState = .rrq ∨ s.client.tftpState = .oack) (rest : List Byte) :
  Inv srv (s.deliver srv (halfBytes opOack ++ o.options) rest)
    ∧ GoesOn s.client (s.deliver srv (halfBytes opOack ++ o.options) rest).client
    ∧ (s.client.tftpState ≠ .rrq →
      Undisturbed s.client (s.deliver srv (halfBytes opOack ++ o.options) rest).client)
  := by
  rcases h.client with hwaiting | ⟨last, hreceiving⟩
  · have hport : s.client.tftpState ≠ .rrq → s.client.tftpServerPort = srv.port := by
      intro hne
      rcases hwaiting.tftpState with ⟨hrrq, -⟩ | ⟨-, -, hport⟩
      · apply absurd hrrq hne
      · apply hport
    have hsize : s.client.tftpBlkSize = tftpBlockSize ∨ s.client.tftpBlkSize = srv.blkSize := by
      rcases hwaiting.tftpState with ⟨-, hsize, -⟩ | ⟨-, hsize, -⟩
      · exact .inl hsize
      · exact .inr hsize
    have hdeliver : s.deliver srv (halfBytes opOack ++ o.options) rest
        = s.react ({ s.client with
            tftpState := .oack, tftpServerPort := srv.port, tftpBlkSize := srv.blkSize },
          some (ackPacket 0)) := by
      rw [System.deliver, tftpHandler_oack o rest hport, handleOack_eq ho hsize hwaiting.tftpBlock]
    have hsent := h.sent_le_got
    rw [hwaiting.got] at hsent
    rw [hdeliver]
    refine ⟨⟨h.sent_le, h.got_le, h.sent_le_got, ?_, ?_, ⟨h.stored.contains, h.stored.size⟩,
      h.success⟩, .inl rfl, ?_⟩
    · intro hacked
      rcases Bool.or_eq_true_iff.mp hacked with hacked | hacked
      · apply h.acked hacked
      · have hzero := ack_zero hsent (Option.some.inj (of_decide_eq_true hacked))
        rw [show (s.react _).sent = s.sent from rfl, hzero]
        apply hwaiting.got
    · exact .inl ⟨hwaiting.got, hwaiting.tftpBlock, .inr ⟨rfl, rfl, rfl⟩⟩
    · intro hne
      obtain ⟨hrrq, -⟩ | ⟨hoack, hsame, -⟩ := hwaiting.tftpState
      · exact absurd hrrq hne
      · exact ⟨rfl, rfl, rfl, rfl, hoack.symm, (hport hne).symm, hsame.symm, .inl rfl⟩
  · rw [hreceiving.tftpState] at hstate
    simp at hstate

theorem System.acked_react {s : System} {r : Reaction} (h : (s.react r).acked) :
  s.acked ∨ r.2 = some (ackPacket s.sent)
  := by
  rcases Bool.or_eq_true_iff.mp h with h | h
  · exact .inl h
  · exact .inr (of_decide_eq_true h)

/-- Before there is data, the client acknowledges the options at most. -/
theorem Waiting.ack_eq {s : System} (h : Waiting srv s) (hsent : s.sent ≤ s.got + 1)
    (hack : tftpSend s.client = ackPacket s.sent) :
  s.client.tftpState ≠ .rrq ∧ s.got = s.sent
  := by
  rcases h.tftpState with ⟨hrrq, -⟩ | ⟨hoack, -⟩
  · apply absurd hack (ackPacket_ne_rrq hrrq)
  · rw [tftpSend_eq (j := 0) (.inl hoack) h.tftpBlock] at hack
    rw [h.got] at hsent ⊢
    refine ⟨?_, (ack_zero hsent hack).symm⟩
    rw [hoack]
    decide

/-- A timeout changes nothing of the transfer, and repeats the last packet. -/
theorem Inv.timeout {s : System} (h : Inv srv s) :
  Inv srv (s.react (tftpTimeout s.client))
  := by
  have hack : (s.react (tftpTimeout s.client)).acked →
      s.acked ∨ tftpSend s.client = ackPacket s.sent := by
    intro hacked
    apply (System.acked_react hacked).imp_right
    rw [tftpTimeout]
    simp only [tftpSend_timeoutCount]
    split
    · nofun
    · apply Option.some.inj
  have hclient : ∃ count net, (tftpTimeout s.client).1
      = { s.client with tftpTimeoutCount := count, netState := net }
        ∧ (net = .netloopSuccess → s.client.netState = .netloopSuccess) := by
    rw [tftpTimeout]
    simp only
    split
    · exact ⟨_, _, rfl, nofun⟩
    · exact ⟨_, _, rfl, id⟩
  obtain ⟨count, net, hclient, hnet⟩ := hclient
  refine ⟨h.sent_le, h.got_le, h.sent_le_got, ?_, ?_, ?_, ?_⟩
  · intro hacked
    rcases hack hacked with hacked | hacked
    · apply h.acked hacked
    · rcases h.client with hwaiting | ⟨last, hreceiving⟩
      · apply (hwaiting.ack_eq h.sent_le_got hacked).2
      · rw [tftpSend_eq (.inr hreceiving.tftpState) hreceiving.tftpBlock] at hacked
        apply hreceiving.ack_eq h.got_le h.sent_le_got hacked
  · simp only [System.react, hclient]
    rcases h.client with hwaiting | ⟨last, hreceiving⟩
    · refine .inl ⟨hwaiting.got, hwaiting.tftpBlock, ?_⟩
      rcases hwaiting.tftpState with ⟨hrrq, hsize, hnack, hsome⟩ | hoack
      · refine .inl ⟨hrrq, hsize, ?_, hsome⟩
        apply Bool.eq_false_iff.mpr
        intro hacked
        rcases hack hacked with hacked | hacked
        · rw [hnack] at hacked
          cases hacked
        · apply ackPacket_ne_rrq hrrq hacked
      · exact .inr hoack
    · exact .inr ⟨last, { hreceiving with }⟩
  · simp only [System.react, hclient]
    exact ⟨h.stored.contains, h.stored.size⟩
  · simp only [System.react, hclient]
    intro hsuccess
    apply h.success (hnet hsuccess)

/-! ### Data -/

theorem tftpHandler_data (rest : List Byte)
    (hport : c.tftpState ≠ .rrq → c.tftpServerPort = srv.port) :
  tftpHandler c (srv.dataPacket j ++ rest) c.tftpOurPort srv.port (srv.dataPacket j).length
    = handleData c (halfBytes (j % tftpSequenceSize) ++ (srv.block j ++ rest)) srv.port
        ((srv.block j).length + 2)
  := by
  have hpkt : srv.dataPacket j ++ rest
      = halfBytes opData ++ (halfBytes (j % tftpSequenceSize) ++ (srv.block j ++ rest)) := by
    simp only [Server.dataPacket, List.append_assoc]
  have hop : bytesHalf (srv.dataPacket j ++ rest) = opData := by
    rw [hpkt]
    apply bytesHalf_halfBytes (by decide)
  have hlen : (srv.dataPacket j).length = (srv.block j).length + 2 + 2 := by
    simp only [Server.dataPacket, List.length_append, length_halfBytes]
    omega
  rw [tftpHandler, if_neg (not_not.mpr rfl), if_neg, hlen, if_neg (by omega), hop,
    if_neg (by decide), if_pos rfl, hpkt]
  · rfl
  · rintro ⟨hstate, hne⟩
    apply hne (hport hstate).symm

/-- The client with the number of the block that has arrived. -/
def numbered (j : ℕ) (c : Client) : Client :=
  countWrap { c with tftpBlock := j % tftpSequenceSize }

theorem handleData_eq (rest : List Byte) :
  handleData c (halfBytes (j % tftpSequenceSize) ++ (srv.block j ++ rest)) srv.port
      ((srv.block j).length + 2)
    = if (numbered j c).tftpState = .rrq ∨ (numbered j c).tftpState = .oack then
        if (firstBlock (numbered j c) srv.port).tftpBlock ≠ 1 then
          ({ firstBlock (numbered j c) srv.port with netState := .startAgain }, none)
        else
          acceptBlock (firstBlock (numbered j c) srv.port)
            (halfBytes (j % tftpSequenceSize) ++ (srv.block j ++ rest)) (srv.block j).length
      else
        acceptBlock (numbered j c)
          (halfBytes (j % tftpSequenceSize) ++ (srv.block j ++ rest)) (srv.block j).length
  := by
  have hnumber : bytesHalf (halfBytes (j % tftpSequenceSize) ++ (srv.block j ++ rest))
      = j % tftpSequenceSize := bytesHalf_halfBytes (Nat.mod_lt _ (by decide)) _
  rw [handleData, if_neg (by omega), hnumber]
  rfl

/-- The first block. -/
theorem handleData_first (hstate : c.tftpState = .rrq ∨ c.tftpState = .oack)
    (hsize : c.tftpBlkSize = srv.blkSize) (rest : List Byte) :
  handleData c (halfBytes (1 % tftpSequenceSize) ++ (srv.block 1 ++ rest)) srv.port
      ((srv.block 1).length + 2)
    = (accepted srv 1 (firstBlock { c with tftpBlock := 1 } srv.port), some (ackPacket 1))
  := by
  have hnumbered : numbered 1 c = { c with tftpBlock := 1 } := rfl
  have hready : Ready srv 1 (firstBlock { c with tftpBlock := 1 } srv.port) := by
    refine ⟨rfl, hsize, rfl, ?_⟩
    rw [show 1 / tftpSequenceSize = 0 from rfl, Nat.zero_mul, Nat.zero_mul]
    rfl
  have hone : (firstBlock { c with tftpBlock := 1 } srv.port).tftpBlock = 1 := rfl
  rw [handleData_eq, hnumbered, if_pos hstate, if_neg (not_not.mpr hone)]
  apply acceptBlock_of_ne hready (le_refl 1)
  exact Nat.one_ne_zero

theorem handleData_of_data (hstate : c.tftpState = .data) (rest : List Byte) :
  handleData c (halfBytes (j % tftpSequenceSize) ++ (srv.block j ++ rest)) srv.port
      ((srv.block j).length + 2)
    = acceptBlock (numbered j c)
        (halfBytes (j % tftpSequenceSize) ++ (srv.block j ++ rest)) (srv.block j).length
  := by
  have hnumbered : (numbered j c).tftpState = .data := by
    rw [numbered, countWrap]
    split
    · exact hstate
    · exact hstate
  rw [handleData_eq, if_neg]
  rw [hnumbered]
  simp

/-- Counting the wraps gives the place of the next block. -/
theorem Receiving.ready_next {got last : ℕ} (h : Receiving srv got last c) :
  Ready srv (got + 1) (numbered (got + 1) c)
    ∧ (numbered (got + 1) c).tftpBlock ≠ (numbered (got + 1) c).tftpLastBlock
  := by
  have hle := h.last_le
  have hdiv := h.last_div
  have hmod := h.last_mod
  have hlast := h.tftpLastBlock
  have hwrap := h.tftpBlockWrapOffset
  simp only [tftpSequenceSize] at hdiv hmod hlast hwrap
  by_cases hzero : (got + 1) % tftpSequenceSize = 0
  · have hnumbered : numbered (got + 1) c
        = { c with
            tftpBlock := (got + 1) % tftpSequenceSize
            tftpBlockWrap := c.tftpBlockWrap + 1
            tftpBlockWrapOffset :=
              c.tftpBlockWrapOffset + BitVec.ofNat 32 (c.tftpBlkSize * tftpSequenceSize) } := by
      rw [numbered, countWrap, if_pos hzero]
    rw [hnumbered]
    simp only [tftpSequenceSize] at hzero ⊢
    refine ⟨⟨h.tftpState, h.tftpBlkSize, rfl, ?_⟩, ?_⟩
    · have hnext : (got + 1) / 2 ^ 16 = got / 2 ^ 16 + 1 := by omega
      simp only [tftpSequenceSize, hnext, hwrap, h.tftpBlkSize, ← BitVec.ofNat_add, Nat.add_mul,
        Nat.one_mul, Nat.mul_comm srv.blkSize]
    · simp only [hlast]
      omega
  · have hnumbered : numbered (got + 1) c
        = { c with tftpBlock := (got + 1) % tftpSequenceSize } := by
      rw [numbered, countWrap, if_neg hzero]
    rw [hnumbered]
    simp only [tftpSequenceSize] at hzero ⊢
    refine ⟨⟨h.tftpState, h.tftpBlkSize, rfl, ?_⟩, ?_⟩
    · have hnext : (got + 1) / 2 ^ 16 = got / 2 ^ 16 := by omega
      simp only [tftpSequenceSize, hwrap, hnext]
    · simp only [hlast]
      omega

/-- A block that comes again since the last wrap, or has the number of the last one. -/
theorem Receiving.handleData_again {got last : ℕ} (h : Receiving srv got last c) (hj : 1 ≤ j)
    (hzero : j % tftpSequenceSize ≠ 0)
    (hagain : j / tftpSequenceSize = got / tftpSequenceSize
      ∨ j % tftpSequenceSize = c.tftpLastBlock) (rest : List Byte) :
  handleData c (halfBytes (j % tftpSequenceSize) ++ (srv.block j ++ rest)) srv.port
        ((srv.block j).length + 2)
      = (c, none)
    ∨ j / tftpSequenceSize = got / tftpSequenceSize
      ∧ handleData c (halfBytes (j % tftpSequenceSize) ++ (srv.block j ++ rest)) srv.port
          ((srv.block j).length + 2)
        = (accepted srv j { c with tftpBlock := j % tftpSequenceSize }, some (ackPacket j))
  := by
  have hnumbered : numbered j c = { c with tftpBlock := j % tftpSequenceSize } := by
    rw [numbered, countWrap, if_neg hzero]
  rw [handleData_of_data h.tftpState, hnumbered]
  by_cases hlast : j % tftpSequenceSize = c.tftpLastBlock
  · have hblock : j % tftpSequenceSize = c.tftpBlock :=
      hlast.trans (h.tftpLastBlock.trans h.tftpBlock.symm)
    left
    rw [acceptBlock, if_pos hlast, hblock]
  · have hdiv := hagain.resolve_right hlast
    right
    refine ⟨hdiv, ?_⟩
    apply acceptBlock_of_ne _ hj hlast
    refine ⟨h.tftpState, h.tftpBlkSize, rfl, ?_⟩
    rw [hdiv]
    apply h.tftpBlockWrapOffset

/-- The client that has accepted the block `j` receives with it as the last one. -/
theorem Ready.receiving_accepted {got : ℕ} (h : Ready srv j c)
    (hport : c.tftpServerPort = srv.port) (hj : 1 ≤ j) (hle : j ≤ got)
    (hdiv : j / tftpSequenceSize = got / tftpSequenceSize)
    (hmod : j % tftpSequenceSize = 0 → j = got) :
  Receiving srv got j (accepted srv j c)
  where
  tftpState := h.tftpState
  tftpServerPort := hport
  tftpBlkSize := h.tftpBlkSize
  tftpBlockWrapOffset := by
    rw [← hdiv]
    apply h.tftpBlockWrapOffset
  tftpBlock := h.tftpBlock
  tftpLastBlock := h.tftpBlock
  last_pos := hj
  last_le := hle
  last_div := hdiv
  last_mod := hmod

/-- The next block. -/
theorem Inv.accept {s : System} (h : Inv srv s) (hsent : s.got + 1 ≤ s.sent)
    (hready : Ready srv (s.got + 1) c) (hport : c.tftpServerPort = srv.port)
    (hstored : Stored srv s.got c) (hnet : c.netState = s.client.netState) :
  Inv srv { s.react (accepted srv (s.got + 1) c, some (ackPacket (s.got + 1))) with
      got := s.got + 1 }
    ∧ GoesOn s.client (accepted srv (s.got + 1) c)
  := by
  have hle := h.sent_le_got
  have heq : s.sent = s.got + 1 := by omega
  have hblocks : s.got + 1 ≤ srv.blocks := hsent.trans h.sent_le
  refine ⟨⟨h.sent_le, hsent, ?_, ?_, .inr ⟨s.got + 1, ?_⟩, ?_, ?_⟩, ?_⟩
  · rw [show (s.react _).sent = s.sent from rfl, heq]
    apply Nat.le_succ
  · intro _
    rw [show (s.react _).sent = s.sent from rfl, heq]
  · apply hready.receiving_accepted hport (Nat.le_add_left 1 _) (le_refl _) rfl (fun _ => rfl)
  · apply stored_accepted hstored (Nat.le_add_left 1 _) hblocks
  · intro hsuccess
    rcases accepted_netState srv (s.got + 1) c with ⟨hshort, -⟩ | ⟨-, hbefore⟩
    · apply (Server.length_block_lt_iff (Nat.le_add_left 1 _) hblocks).mp hshort
    · -- the transfer cannot have succeeded before
      have := h.success (hnet.symm.trans (hbefore.symm.trans hsuccess))
      omega
  · obtain ⟨-, hsuccess⟩ | ⟨-, hbefore⟩ := accepted_netState srv (s.got + 1) c
    · exact .inr hsuccess
    · exact .inl (hbefore.trans hnet)

theorem Inv.port {s : System} (h : Inv srv s) (hstate : s.client.tftpState ≠ .rrq) :
  s.client.tftpServerPort = srv.port
  := by
  rcases h.client with hwaiting | ⟨last, hreceiving⟩
  · rcases hwaiting.tftpState with ⟨hrrq, -⟩ | ⟨-, -, hport⟩
    · apply absurd hrrq hstate
    · apply hport
  · apply hreceiving.tftpServerPort

/-- A block that is new. -/
theorem Inv.data_next {s : System} (h : Inv srv s) (hsent : s.got + 1 ≤ s.sent) (rest : List Byte) :
  Inv srv { s.deliver srv (srv.dataPacket (s.got + 1)) rest with got := s.got + 1 }
    ∧ GoesOn s.client (s.deliver srv (srv.dataPacket (s.got + 1)) rest).client
  := by
  rw [System.deliver, tftpHandler_data rest h.port]
  rcases h.client with hwaiting | ⟨last, hreceiving⟩
  · have hsize : s.client.tftpBlkSize = srv.blkSize := by
      rcases hwaiting.tftpState with ⟨-, hsize, -, hsome⟩ | ⟨-, hsize, -⟩
      · -- there was no acknowledgement of options
        have hnone : srv.oack = none := by
          by_contra hne
          have := hsome (Option.isSome_iff_ne_none.mpr hne)
          omega
        rw [hsize, Server.blkSize, hnone]
        rfl
      · apply hsize
    have hstate : s.client.tftpState = .rrq ∨ s.client.tftpState = .oack := by
      rcases hwaiting.tftpState with ⟨hrrq, -⟩ | ⟨hoack, -⟩
      · exact .inl hrrq
      · exact .inr hoack
    have hfirst := handleData_first hstate hsize rest
    have haccept := h.accept (c := firstBlock { s.client with tftpBlock := 1 } srv.port) hsent
    rw [hwaiting.got] at haccept ⊢
    rw [hfirst]
    apply haccept _ rfl _ rfl
    · refine ⟨rfl, hsize, rfl, ?_⟩
      rw [show (0 + 1) / tftpSequenceSize = 0 from rfl, Nat.zero_mul, Nat.zero_mul]
      rfl
    · have hstored := h.stored
      rw [hwaiting.got] at hstored
      exact ⟨hstored.contains, hstored.size⟩
  · obtain ⟨hready, hne⟩ := hreceiving.ready_next
    rw [handleData_of_data hreceiving.tftpState, acceptBlock_of_ne hready (Nat.le_add_left 1 _) hne]
    have hsame : (numbered (s.got + 1) s.client).mem = s.client.mem
        ∧ (numbered (s.got + 1) s.client).loadAddr = s.client.loadAddr
        ∧ (numbered (s.got + 1) s.client).netBootFileXferSize = s.client.netBootFileXferSize
        ∧ (numbered (s.got + 1) s.client).tftpServerPort = s.client.tftpServerPort
        ∧ (numbered (s.got + 1) s.client).netState = s.client.netState := by
      rw [numbered, countWrap]
      split
      · exact ⟨rfl, rfl, rfl, rfl, rfl⟩
      · exact ⟨rfl, rfl, rfl, rfl, rfl⟩
    obtain ⟨hmem, hload, hxfer, hport, hnet⟩ := hsame
    apply h.accept hsent hready (hport.trans hreceiving.tftpServerPort) _ hnet
    constructor
    · rw [hmem, hload]
      apply h.stored.contains
    · rw [hxfer]
      apply h.stored.size

/-- A block that comes again and is harmless. -/
theorem Inv.data_again {s : System} (h : Inv srv s) (hj : 1 ≤ j) (hle : j ≤ s.got)
    (hzero : j % tftpSequenceSize ≠ 0)
    (hagain : j / tftpSequenceSize = s.got / tftpSequenceSize
      ∨ j % tftpSequenceSize = s.client.tftpLastBlock) (rest : List Byte) :
  Inv srv (s.deliver srv (srv.dataPacket j) rest)
    ∧ Undisturbed s.client (s.deliver srv (srv.dataPacket j) rest).client
  := by
  rcases h.client with hwaiting | ⟨last, hreceiving⟩
  · have := hwaiting.got
    omega
  rw [System.deliver, tftpHandler_data rest h.port]
  rcases hreceiving.handleData_again hj hzero hagain rest with hsame | ⟨hdiv, hstore⟩
  · rw [hsame]
    refine ⟨⟨h.sent_le, h.got_le, h.sent_le_got, ?_, .inr ⟨last, hreceiving⟩, h.stored, h.success⟩,
      rfl, rfl, rfl, rfl, rfl, rfl, rfl, .inl rfl⟩
    intro hacked
    rcases System.acked_react hacked with hacked | hnone
    · apply h.acked hacked
    · cases hnone
  · have hblocks : s.got ≤ srv.blocks := h.got_le.trans h.sent_le
    have hready : Ready srv j { s.client with tftpBlock := j % tftpSequenceSize } := by
      refine ⟨hreceiving.tftpState, hreceiving.tftpBlkSize, rfl, ?_⟩
      rw [hdiv]
      apply hreceiving.tftpBlockWrapOffset
    have hstored : Stored srv s.got { s.client with tftpBlock := j % tftpSequenceSize } :=
      ⟨h.stored.contains, h.stored.size⟩
    have hreceiving' := hready.receiving_accepted hreceiving.tftpServerPort hj hle hdiv
      (fun hmod => absurd hmod hzero)
    obtain ⟨hmem, hxfer⟩ := accepted_stored hstored hj hle hblocks
    have hnet := accepted_netState srv j { s.client with tftpBlock := j % tftpSequenceSize }
    rw [hstore]
    refine ⟨⟨h.sent_le, h.got_le, h.sent_le_got, ?_, .inr ⟨j, hreceiving'⟩, ?_, ?_⟩,
      hmem, rfl, hxfer, rfl, rfl, rfl, rfl, ?_⟩
    · intro hacked
      rcases System.acked_react hacked with hacked | hack
      · apply h.acked hacked
      · apply hreceiving'.ack_eq h.got_le h.sent_le_got (Option.some.inj hack)
    · constructor
      · rw [show (s.react (accepted srv j _, _)).client = accepted srv j _ from rfl, hmem]
        apply h.stored.contains
      · apply hxfer.trans h.stored.size
    · intro hsuccess
      rcases hnet with ⟨hshort, -⟩ | ⟨-, hbefore⟩
      · have hlast := (Server.length_block_lt_iff hj (hle.trans hblocks)).mp hshort
        apply le_antisymm hblocks (hlast.symm.trans_le hle)
      · apply h.success (hbefore.symm.trans hsuccess)
    · rcases hnet with ⟨-, hsuccess⟩ | ⟨-, hbefore⟩
      · exact .inr hsuccess
      · exact .inl hbefore

/-! ### The run -/

/-- **One step.**  A harmless one keeps the invariant. -/
theorem Inv.step {s s' : System} {e : Event} (h : Inv srv s) (hharmless : Harmless s e)
    (hstep : step srv s e = some s') :
  Inv srv s' ∧ (e ≠ .timeout → GoesOn s.client s'.client)
    ∧ (Duplicate s e → Undisturbed s.client s'.client)
  := by
  unfold Tftp.step at hstep
  split at hstep
  · cases hstep
  cases e with
  | send =>
    simp only at hstep
    split at hstep
    case isTrue hcond =>
      obtain rfl := Option.some.inj hstep
      exact ⟨h.send hcond.1 hcond.2, fun _ => .inl rfl, nofun⟩
    case isFalse => cases hstep
  | oack rest =>
    obtain ⟨o, ho, rfl⟩ := Option.map_eq_some_iff.mp hstep
    obtain ⟨hinv, hgoesOn, hundisturbed⟩ := h.oack ho hharmless rest
    exact ⟨hinv, fun _ => hgoesOn, hundisturbed⟩
  | data j rest =>
    simp only at hstep
    split at hstep
    case isTrue hcond =>
      obtain rfl := Option.some.inj hstep
      have hsent := h.sent_le_got
      by_cases hle : j ≤ s.got
      · obtain ⟨hzero, hagain⟩ := hharmless hle
        rw [if_neg (by omega)]
        obtain ⟨hinv, hundisturbed⟩ := h.data_again hcond.1 hle hzero hagain rest
        exact ⟨hinv, fun _ => hundisturbed.goesOn, fun _ => hundisturbed⟩
      · obtain rfl : j = s.got + 1 := by omega
        rw [if_pos rfl]
        obtain ⟨hinv, hgoesOn⟩ := h.data_next hcond.2 rest
        refine ⟨hinv, fun _ => hgoesOn, ?_⟩
        intro hdup
        apply absurd hdup hle
    case isFalse => cases hstep
  | timeout =>
    obtain rfl := Option.some.inj hstep
    exact ⟨h.timeout, fun hne => absurd rfl hne, nofun⟩

/-- **A TFTP transfer.**  In every run in which each packet that arrives is harmless, the file is
in memory whenever the transfer has succeeded, only a timeout makes the client start again, and a
packet that comes again disturbs nothing. -/
theorem transfer_sound (srv : Server) (c : Client) (ourPort rrqTimeoutCountMax : ℕ)
    {es : List Event} {s : System}
    (hrun : Run.exec (step srv) (.start c ourPort rrqTimeoutCountMax) es = some s)
    (hharmless : Run.Along (step srv) Harmless (.start c ourPort rrqTimeoutCountMax) es) :
  Complete srv s.client
    ∧ ∀ e s', Harmless s e → step srv s e = some s' →
        (s'.client.netState = .startAgain → e = .timeout)
          ∧ (Duplicate s e → Undisturbed s.client s'.client)
  := by
  have hinv : Inv srv s := Run.exec_invariant_of_some
    (fun _ _ _ hinv hharmless hstep => (hinv.step hharmless hstep).1) (inv_start srv c _ _)
    hharmless hrun
  refine ⟨hinv.complete, ?_⟩
  intro e s' he hstep
  obtain ⟨-, hgoesOn, hundisturbed⟩ := hinv.step he hstep
  refine ⟨fun hagain => ?_, hundisturbed⟩
  by_contra hne
  obtain hsame | hsuccess := hgoesOn hne
  · have hnone : Tftp.step srv s e = none := if_pos (.inl (hsame.symm.trans hagain))
    rw [hnone] at hstep
    cases hstep
  · rw [hsuccess] at hagain
    cases hagain

/-- A server with a file of ten bytes that agrees to blocks of eight. -/
def smallServer : Server where
  file := [1, 2, 3, 4, 5, 6, 7, 8, 9, 10]
  port := 2000
  oack := some ⟨[(.timeout, 5)], some 8, []⟩
  length_file := by decide
  blksize_range := by
    rintro o ho b hb
    obtain rfl := Option.some.inj ho
    obtain rfl := Option.some.inj hb
    decide

/-- A client that was not used before. -/
def freshClient : Client where
  mem := fun _ => 0
  loadAddr := 0x100000
  tftpFilename := ascii "f"
  tftpTimeoutMSecs := 5000
  tftpBlkSizeOption := 1468
  tftpServerPort := 0
  tftpOurPort := 0
  tftpTimeoutCount := 0
  tftpTimeoutCountMax := timeoutCount
  tftpBlock := 0
  tftpLastBlock := 0
  tftpBlockWrap := 0
  tftpBlockWrapOffset := 0
  tftpState := .rrq
  tftpBlkSize := tftpBlockSize
  netBootFileXferSize := 0
  netState := .netloopContinue

instance (s : System) : (e : Event) → Decidable (Harmless s e)
  | .send => .isTrue trivial
  | .oack _ => inferInstanceAs (Decidable (_ ∨ _))
  | .data _ _ => inferInstanceAs (Decidable (_ → _))
  | .timeout => .isTrue trivial

/-- The packets arrive twice, and an acknowledgement is lost. -/
theorem transfer_sound_small :
  ∃ s, Run.exec (step smallServer) (.start freshClient 1030 10)
      [.oack [], .oack [7], .send, .data 1 [], .data 1 [8, 9], .timeout, .send, .data 2 []] = some s
    ∧ s.client.netState = .netloopSuccess
    ∧ AddressSpace.Contains s.client.mem 0x100000 smallServer.file
    ∧ s.client.netBootFileXferSize = 10
  := by
  obtain ⟨s, hs, hsuccess, hload, hsize⟩ :
      ∃ s, Run.exec (step smallServer) (.start freshClient 1030 10)
          [.oack [], .oack [7], .send, .data 1 [], .data 1 [8, 9], .timeout, .send, .data 2 []]
          = some s
        ∧ s.client.netState = .netloopSuccess ∧ s.client.loadAddr = 0x100000
        ∧ s.client.netBootFileXferSize = 10 :=
    ⟨(Run.exec _ _ _).get (by decide +kernel), (Option.some_get _).symm, by decide +kernel,
      by decide +kernel, by decide +kernel⟩
  have hsound := transfer_sound smallServer freshClient 1030 10 hs (by decide +kernel)
  refine ⟨s, hs, hsuccess, ?_, hsize⟩
  rw [← hload]
  apply (hsound.1 hsuccess).1

/-- The acknowledgement of the options arrives again between the blocks.  Without it the transfer
succeeds; with it the client takes the next block for the first one, and starts again. -/
theorem oack_again_restarts :
  (∃ s, Run.exec (step smallServer) (.start freshClient 1030 10)
      [.oack [], .send, .data 1 [], .send, .data 2 []] = some s
    ∧ s.client.netState = .netloopSuccess)
  ∧ ∃ s s', Run.exec (step smallServer) (.start freshClient 1030 10)
      [.oack [], .send, .data 1 [], .send] = some s
    ∧ Duplicate s (.oack [])
    ∧ Run.exec (step smallServer) s [.oack [], .data 2 []] = some s'
    ∧ s'.client.netState = .startAgain
  := by
  constructor
  · exact ⟨(Run.exec _ _ _).get (by decide +kernel), (Option.some_get _).symm, by decide +kernel⟩
  · refine ⟨(Run.exec _ _ _).get (by decide +kernel), (Run.exec _ _ _).get (by decide +kernel),
      (Option.some_get _).symm, ?_, (Option.some_get _).symm, by decide +kernel⟩
    unfold Duplicate
    decide +kernel

/-- The block with the number 0 that arrives again is taken for one more wrap. -/
theorem Receiving.wrap_again {got : ℕ} (h : Receiving srv got got c)
    (hzero : got % tftpSequenceSize = 0) (rest : List Byte) :
  (handleData c (halfBytes (got % tftpSequenceSize) ++ (srv.block got ++ rest)) srv.port
        ((srv.block got).length + 2)).1.tftpBlockWrapOffset
    = c.tftpBlockWrapOffset + BitVec.ofNat 32 (srv.blkSize * tftpSequenceSize)
  := by
  have hlast : (numbered got c).tftpBlock = (numbered got c).tftpLastBlock := by
    rw [numbered, countWrap, if_pos hzero]
    exact h.tftpLastBlock.symm
  rw [handleData_of_data h.tftpState, acceptBlock, if_pos hlast, numbered, countWrap, if_pos hzero,
    h.tftpBlkSize]

end Tftp
