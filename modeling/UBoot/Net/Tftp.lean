import UBoot.Lib.AddressSpace
import UBoot.Env.Setenv

/-!
# The TFTP client

`TftpHandler` of `net/tftp.c` gets the packets that the server sends, and stores the blocks of
the file at the load address while they arrive.  The number of a block has 16 bits; when it
wraps around to 0, the client adds the size of all the blocks before it to an offset.

A packet is the memory from its first byte on, together with its length: the handler gets a
pointer and does not look at the length everywhere.
-/

namespace Tftp

/-- `TFTP_RRQ`. -/
def opRrq : ℕ := 1

/-- `TFTP_DATA`. -/
def opData : ℕ := 3

/-- `TFTP_ACK`. -/
def opAck : ℕ := 4

/-- `TFTP_ERROR`. -/
def opError : ℕ := 5

/-- `TFTP_OACK`. -/
def opOack : ℕ := 6

/-- `WELL_KNOWN_PORT`. -/
def wellKnownPort : ℕ := 69

/-- `TIMEOUT_COUNT`. -/
def timeoutCount : ℕ := 10

/-- `TFTP_BLOCK_SIZE`. -/
def tftpBlockSize : ℕ := 512

/-- `TFTP_SEQUENCE_SIZE`. -/
def tftpSequenceSize : ℕ := 2 ^ 16

/-- `TFTP_ERR_FILE_NOT_FOUND`. -/
def errFileNotFound : ℕ := 1

/-- `TFTP_ERR_ACCESS_DENIED`. -/
def errAccessDenied : ℕ := 2

/-- The values of `TftpState`. -/
inductive State where
  | rrq
  | data
  | tooLarge
  | badMagic
  | oack
deriving DecidableEq

/-- What the network loop does next, `NetState`; `startAgain` is what `NetStartAgain` leads to,
which tries again or gives up. -/
inductive NetState where
  | netloopContinue
  | startAgain
  | netloopSuccess
  | netloopFail
deriving DecidableEq

/-- The variables of the client, with the memory of the machine. -/
structure Client where
  mem : Word → Byte
  loadAddr : Word
  tftpFilename : List Byte
  tftpTimeoutMSecs : ℕ
  tftpBlkSizeOption : ℕ
  tftpServerPort : ℕ
  tftpOurPort : ℕ
  tftpTimeoutCount : ℕ
  tftpTimeoutCountMax : ℕ
  tftpBlock : ℕ
  tftpLastBlock : ℕ
  tftpBlockWrap : Word
  tftpBlockWrapOffset : Word
  tftpState : State
  tftpBlkSize : ℕ
  netBootFileXferSize : Word
  netState : NetState

/-- The digits that `sprintf` prints for `%d`, in front of `acc`. -/
def decimalLoop : ℕ → ℕ → List Byte → List Byte
  | 0, _, acc => acc
  | fuel + 1, n, acc =>
    if n < 10 then UInt8.ofNat (48 + n) :: acc
    else decimalLoop fuel (n / 10) (UInt8.ofNat (48 + n % 10) :: acc)

/-- The digits that `sprintf` prints for `%d`. -/
def decimal (n : ℕ) : List Byte := decimalLoop (n + 1) n []

/-- A string with its NUL. -/
def cstring (s : String) : List Byte := ascii s ++ [0]

/-- The packet that `TftpSend` sends to `TftpServerPort`. -/
def tftpSend (c : Client) : List Byte :=
  match c.tftpState with
  | .rrq =>
    halfBytes opRrq ++ c.tftpFilename ++ [0] ++ cstring "octet" ++ cstring "timeout"
      ++ decimal (c.tftpTimeoutMSecs / 1000) ++ [0] ++ cstring "blksize"
      ++ decimal c.tftpBlkSizeOption ++ [0]
  | .oack | .data => halfBytes opAck ++ halfBytes c.tftpBlock
  | .tooLarge => halfBytes opError ++ halfBytes 3 ++ cstring "File too large"
  | .badMagic => halfBytes opError ++ halfBytes 2 ++ cstring "File has bad magic"

/-- `store_block`, with `len` bytes from `src` on. -/
def storeBlock (c : Client) (block : Word) (src : List Byte) (len : ℕ) : Client :=
  let offset := block * BitVec.ofNat 32 c.tftpBlkSize + c.tftpBlockWrapOffset
  let newsize := offset + BitVec.ofNat 32 len
  { c with
    mem := AddressSpace.copy c.mem (c.loadAddr + offset) (src.take len)
    netBootFileXferSize :=
      if c.netBootFileXferSize < newsize then newsize else c.netBootFileXferSize }

/-- The loop that looks for the option `blksize`, for `n` more characters. -/
def blksizeLoop : ℕ → List Byte → ℕ → ℕ
  | 0, _, blkSize => blkSize
  | n + 1, pkt, blkSize =>
    blksizeLoop n pkt.tail
      (if pkt.take 8 = cstring "blksize" then (Env.simpleStrtoul (pkt.drop 8) 10).1 % 2 ^ 16
      else blkSize)

/-- The client and the packet that it sends. -/
abbrev Reaction := Client × Option (List Byte)

/-- `TftpHandler` for a `TFTP_OACK`. -/
def handleOack (c : Client) (pkt : List Byte) (src len : ℕ) : Reaction :=
  let c := { c with
    tftpState := .oack
    tftpServerPort := src
    tftpBlkSize := blksizeLoop (len - 8) pkt c.tftpBlkSize }
  (c, some (tftpSend c))

/-- The wrap around of the block number. -/
def countWrap (c : Client) : Client :=
  if c.tftpBlock = 0 then
    { c with
      tftpBlockWrap := c.tftpBlockWrap + 1
      tftpBlockWrapOffset :=
        c.tftpBlockWrapOffset + BitVec.ofNat 32 (c.tftpBlkSize * tftpSequenceSize) }
  else c

/-- The first block that is received. -/
def firstBlock (c : Client) (src : ℕ) : Client :=
  { c with
    tftpState := .data
    tftpServerPort := src
    tftpLastBlock := 0
    tftpBlockWrap := 0
    tftpBlockWrapOffset := 0 }

/-- A block of data, once it was decided where it goes. -/
def acceptBlock (c : Client) (pkt : List Byte) (len : ℕ) : Reaction :=
  if c.tftpBlock = c.tftpLastBlock then (c, none)
  else
    let c := { c with tftpLastBlock := c.tftpBlock, tftpTimeoutCountMax := timeoutCount }
    let c := storeBlock c (BitVec.ofNat 32 c.tftpBlock - 1) (pkt.drop 2) len
    ({ c with netState := if len < c.tftpBlkSize then .netloopSuccess else c.netState },
      some (tftpSend c))

/-- `TftpHandler` for a `TFTP_DATA`. -/
def handleData (c : Client) (pkt : List Byte) (src len : ℕ) : Reaction :=
  if len < 2 then (c, none)
  else
    let c := countWrap { c with tftpBlock := bytesHalf pkt }
    if c.tftpState = .rrq ∨ c.tftpState = .oack then
      let c := firstBlock c src
      if c.tftpBlock ≠ 1 then ({ c with netState := .startAgain }, none)
      else acceptBlock c pkt (len - 2)
    else acceptBlock c pkt (len - 2)

/-- `TftpHandler` for a `TFTP_ERROR`. -/
def handleError (c : Client) (pkt : List Byte) : Reaction :=
  if bytesHalf pkt = errFileNotFound ∨ bytesHalf pkt = errAccessDenied then
    ({ c with netState := .netloopFail }, none)
  else ({ c with netState := .startAgain }, none)

/-- `TftpHandler`; it ignores the other packets. -/
def tftpHandler (c : Client) (pkt : List Byte) (dest src len : ℕ) : Reaction :=
  if dest ≠ c.tftpOurPort then (c, none)
  else if c.tftpState ≠ .rrq ∧ src ≠ c.tftpServerPort then (c, none)
  else if len < 2 then (c, none)
  else if bytesHalf pkt = opOack then handleOack c (pkt.drop 2) src (len - 2)
  else if bytesHalf pkt = opData then handleData c (pkt.drop 2) src (len - 2)
  else if bytesHalf pkt = opError then handleError c (pkt.drop 2)
  else (c, none)

/-- `TftpTimeout`. -/
def tftpTimeout (c : Client) : Reaction :=
  let c := { c with tftpTimeoutCount := c.tftpTimeoutCount + 1 }
  if c.tftpTimeoutCount > c.tftpTimeoutCountMax then ({ c with netState := .startAgain }, none)
  else (c, some (tftpSend c))

/-- What `TftpStart` and `NetLoop` set at the start of a transfer, with the port and the number of
timeouts that they choose; the other variables are what an earlier transfer left. -/
def tftpStart (c : Client) (ourPort rrqTimeoutCountMax : ℕ) : Client :=
  { c with
    tftpTimeoutCountMax := rrqTimeoutCountMax
    tftpServerPort := wellKnownPort
    tftpTimeoutCount := 0
    tftpState := .rrq
    tftpOurPort := ourPort
    tftpBlock := 0
    tftpBlkSize := tftpBlockSize
    netBootFileXferSize := 0
    netState := .netloopContinue }

end Tftp
