import UBoot.Lib.Logged
import UBoot.Lib.Memory

/-!
# Transfers of the I2C controller

`i2c_read` and `i2c_write` of `drivers/i2c/ppc4xx_i2c.c`.  One loop of `i2c_transfer` serves the
bytes of the address and those of the data; each iteration gives the controller a command for up to
four of them.  The controller may answer anything at any time.

The commands that a transfer needs are described apart from the loop.  A transfer issues them in
their order, up to the first one that fails.
-/

namespace I2c

open Logged

/-! ### The registers -/

/-- The registers of `struct ppc4xx_i2c` that a transfer uses. -/
inductive Reg
  | mdbuf
  | lmadr
  | hmadr
  | cntl
  | mdcntl
  | sts
  | extsts
  deriving DecidableEq

/-- An access to a register. -/
inductive Event
  | output (r : Reg) (v : Byte)
  | input (r : Reg) (v : Byte)

/-- What a register reads as; this may depend on all accesses before. -/
abbrev Controller := Reg → List Event → Byte

/-- `out_8`. -/
def out8 (r : Reg) (v : Byte) : LogM Event Unit := note (.output r v)

/-- `in_8`. -/
def in8 (ctl : Controller) (r : Reg) : LogM Event Byte := ask (ctl r) (.input r)

def iicOk : ℕ := 0
def iicNok : ℕ := 1

/-- Lost arbitration. -/
def iicNokLa : ℕ := 2

/-- Incomplete transfer. -/
def iicNokIct : ℕ := 3

/-- Transfer aborted. -/
def iicNokXfra : ℕ := 4

/-- No data in buffer. -/
def iicNokData : ℕ := 5

/-- Transfer timeout. -/
def iicNokTout : ℕ := 6

def mdcntlFmdb : Byte := 0x40
def mdcntlFsdb : Byte := 0x80
def cntlPt : Byte := 0x01
def cntlRead : Byte := 0x02
def cntlCht : Byte := 0x04
def cntlRpst : Byte := 0x08
def stsPt : Byte := 0x01
def stsErr : Byte := 0x04
def stsScmp : Byte := 0x08
def stsMdbs : Byte := 0x20
def extstsXfra : Byte := 0x01
def extstsIct : Byte := 0x02
def extstsLa : Byte := 0x04

/-! ### The functions -/

section Source

variable (ctl : Controller)

/-- The loops that read the status at most `n + 1` times, and stop before if it need not be read
again. -/
def poll (again : Byte → Bool) : ℕ → LogM Event Byte
  | 0 => in8 ctl .sts
  | n + 1 => do
    let status ← in8 ctl .sts
    if again status then poll again n else pure status

/-- The loop that sets the buffer. -/
def writeBuf : List Byte → LogM Event Unit
  | [] => pure ()
  | b :: bs => do
    out8 .mdbuf b
    writeBuf bs

/-- The loop that gets the buffer. -/
def readBuf : ℕ → LogM Event (List Byte)
  | 0 => pure []
  | n + 1 => do
    let b ← in8 ctl .mdbuf
    let bs ← readBuf n
    pure (b :: bs)

/-- The buffer is set, the command is given, and its end is waited for. -/
def issue (sent : List Byte) (creg : Byte) : LogM Event Byte := do
  writeBuf sent
  out8 .cntl creg
  poll ctl (fun status => status &&& stsPt ≠ 0 ∧ status &&& stsErr = 0) (2 * 5 * 8 - 1)

/-- The result of the command. -/
def completion (status : Byte) : LogM Event ℕ :=
  if status &&& stsErr ≠ 0 then do
    let status ← in8 ctl .extsts
    let result := iicNok
    let result := if status &&& extstsLa ≠ 0 then iicNokLa else result
    let result := if status &&& extstsIct ≠ 0 then iicNokIct else result
    let result := if status &&& extstsXfra ≠ 0 then iicNokXfra else result
    pure result
  else pure (if status &&& stsPt ≠ 0 then iicNokTout else iicOk)

/-- The variables of the loop of `i2c_transfer`; `inAddr` says that `ptr` is `addr`, and `data` is
what the buffer holds. -/
structure State where
  inAddr : Bool
  tran : ℕ
  result : ℕ
  creg : Byte
  data : List Byte

variable (cmdType : Bool) (addr : List Byte)

namespace State

variable (s : State)

/-- What `ptr` points to, `cnt` bytes. -/
def ptr : List Byte := if s.inAddr then addr else s.data

def cnt : ℕ := (s.ptr addr).length

def reading : Bool := !s.inAddr && cmdType

/-- `bc`, the bytes of the next command. -/
def bc : ℕ := if s.cnt addr - s.tran > 4 then 4 else s.cnt addr - s.tran

/-- The value for the control register. -/
def control : Byte :=
  let creg := s.creg ||| cntlPt ||| UInt8.ofNat (s.bc addr - 1) <<< 4
  let creg := if (!cmdType && s.inAddr) || s.tran + s.bc addr ≠ s.cnt addr then creg ||| cntlCht
    else creg
  if s.reading cmdType then creg ||| cntlRead else creg

/-- The bytes that are put into the buffer of the controller. -/
def sent : List Byte :=
  if s.reading cmdType then [] else ((s.ptr addr).drop s.tran).take (s.bc addr)

/-- The variables after a command. -/
def advance (result : ℕ) (data : List Byte) : State :=
  if s.inAddr ∧ s.tran + s.bc addr = s.cnt addr then
    { inAddr := false
      tran := 0
      result := result
      creg := if cmdType then cntlRpst else 0
      data := data }
  else
    { inAddr := s.inAddr
      tran := s.tran + s.bc addr
      result := result
      creg := 0
      data := data }

end State

/-- What is read is taken from the buffer of the controller. -/
def fetch (s : State) (status : Byte) (result : ℕ) : LogM Event (ℕ × List Byte) :=
  if s.reading cmdType ∧ result = iicOk then
    if status &&& stsMdbs ≠ 0 then do
      let bytes ← readBuf ctl (s.bc addr)
      pure (result, s.data.take s.tran ++ bytes ++ s.data.drop (s.tran + s.bc addr))
    else pure (iicNokData, s.data)
  else pure (result, s.data)

/-- The body of the loop. -/
def pass (s : State) : LogM Event State := do
  let status ← issue ctl (s.sent cmdType addr) (s.control cmdType addr)
  let result ← completion ctl status
  let r ← fetch ctl cmdType addr s status result
  pure (s.advance cmdType addr r.1 r.2)

/-- The loop; an iteration is for one byte at least. -/
def loop : ℕ → State → LogM Event State
  | 0, s => pure s
  | n + 1, s =>
    if s.tran ≠ s.cnt addr ∧ s.result = iicOk then do
      let s ← pass ctl cmdType addr s
      loop n s
    else pure s

/-- `i2c_transfer`: the result, and what the buffer for the data holds afterwards.  The address of
the buffer is not 0. -/
def i2cTransfer (chip : Byte) (data : List Byte) : LogM Event (ℕ × List Byte) :=
  if data = [] then pure (iicNok, data)
  else do
    out8 .sts stsScmp
    let status ← poll ctl (fun status => status &&& stsPt ≠ 0) (10 - 1)
    if status &&& stsPt ≠ 0 then pure (iicNokTout, data)
    else do
      let mdcntl ← in8 ctl .mdcntl
      out8 .mdcntl (mdcntl ||| mdcntlFmdb ||| mdcntlFsdb)
      out8 .hmadr 0
      out8 .lmadr chip
      let s ← loop ctl cmdType addr (addr.length + data.length) ⟨addr ≠ [], 0, iicOk, 0, data⟩
      pure (s.result, s.data)

end Source

/-- `ppc4xx_i2c_transfer`, without address overflow; the length of the data is cut to a
`unsigned short`. -/
def ppc4xxI2cTransfer (ctl : Controller) (chip : Byte) (addr : Word) (alen : ℕ)
    (buffer : List Byte) (read : Bool) : LogM Event (ℕ × List Byte) :=
  if alen > 4 then pure (1, buffer)
  else do
    let len := buffer.length % 2 ^ 16
    let r ← i2cTransfer ctl read ((wordBytes addr).drop (4 - alen)) (chip <<< 1) (buffer.take len)
    pure (if r.1 ≠ 0 then 1 else 0, r.2 ++ buffer.drop len)

def i2cRead (ctl : Controller) (chip : Byte) (addr : Word) (alen : ℕ) (buffer : List Byte) :
    LogM Event (ℕ × List Byte) :=
  ppc4xxI2cTransfer ctl chip addr alen buffer true

def i2cWrite (ctl : Controller) (chip : Byte) (addr : Word) (alen : ℕ) (buffer : List Byte) :
    LogM Event (ℕ × List Byte) :=
  ppc4xxI2cTransfer ctl chip addr alen buffer false

/-! ### The commands of a transfer -/

/-- A command for `count` bytes.  A chained command is followed by others of the same transaction,
and a restarted one begins with a repeated start. -/
structure Command where
  count : ℕ
  sent : List Byte
  read : Bool
  chain : Bool
  restart : Bool

/-- Its value for the control register. -/
def Command.creg (c : Command) : Byte :=
  cntlPt ||| UInt8.ofNat (c.count - 1) <<< 4 ||| (if c.chain then cntlCht else 0)
    ||| (if c.read then cntlRead else 0) ||| (if c.restart then cntlRpst else 0)

/-- The commands for some bytes, four by four.  All but the last are chained. -/
def commands (read chainLast restart : Bool) (bytes : List Byte) : List Command :=
  if _h : bytes = [] then []
  else
    { count := min bytes.length 4
      sent := if read then [] else bytes.take 4
      read := read
      chain := chainLast || 4 < bytes.length
      restart := restart } :: commands read chainLast false (bytes.drop 4)
  termination_by bytes.length
  decreasing_by
    rw [List.length_drop]
    have hpos := List.length_pos_iff.mpr _h
    omega

/-- The commands of a transfer: the address is written, and then the data are written in the same
transaction, or read after a repeated start. -/
def expected (read : Bool) (addr data : List Byte) : List Command :=
  commands false (!read) false addr ++ commands read false (read && addr ≠ []) data

/-- What happens with a command: the bytes that are put into the buffer, the value for the control
register, the statuses, the extended status, and the bytes that are got from the buffer. -/
structure Transcript where
  sent : List Byte
  creg : Byte
  polls : List Byte
  ext : Option Byte
  received : List Byte

def Transcript.events (t : Transcript) : List Event :=
  t.sent.map (.output .mdbuf) ++ [.output .cntl t.creg] ++ t.polls.map (.input .sts)
    ++ (t.ext.map (.input .extsts)).toList ++ t.received.map (.input .mdbuf)

/-- The command was issued. -/
structure Transcript.Issues (t : Transcript) (c : Command) : Prop where
  sent : t.sent = c.sent
  creg : t.creg = c.creg

/-- The command was completed without an error, and what it reads was got from the data register. -/
structure Transcript.Completes (t : Transcript) (c : Command) : Prop where
  status : ∃ status, t.polls.getLast? = some status ∧ status &&& stsErr = 0 ∧ status &&& stsPt = 0
    ∧ (c.read → status &&& stsMdbs ≠ 0)
  received : t.received.length = if c.read then c.count else 0

/-- The commands were issued one after the other, each after the ones before were completed, with
the result 0 if all of them were completed. -/
inductive Follows : List Command → List Transcript → ℕ → Prop
  | done : Follows [] [] 0
  | fail {c : Command} {cs : List Command} {t : Transcript} {r : ℕ} (hc : t.Issues c)
    (hfail : ¬ t.Completes c) (hr : r ≠ 0) : Follows (c :: cs) [t] r
  | next {c : Command} {cs : List Command} {t : Transcript} {ts : List Transcript} {r : ℕ}
    (hc : t.Issues c) (hcompletes : t.Completes c) (h : Follows cs ts r) :
    Follows (c :: cs) (t :: ts) r

/-! ### The commands for some bytes -/

section Commands

variable {read chainLast restart : Bool} {bytes : List Byte}

theorem commands_nil :
  commands read chainLast restart [] = []
  := by
  unfold commands
  rfl

/-- The first command is for the first bytes, and the others are for the bytes behind them. -/
theorem commands_of_ne_nil (h : bytes ≠ []) :
  commands read chainLast restart bytes =
    { count := min bytes.length 4
      sent := if read then [] else bytes.take 4
      read := read
      chain := chainLast || 4 < bytes.length
      restart := restart } :: commands read chainLast false (bytes.drop 4)
  := by
  rw [commands]
  exact dif_neg h

/-- Bytes are taken from the front, four at a time. -/
theorem bytes_induction {P : Bool → List Byte → Prop} (hnil : ∀ restart, P restart [])
    (hstep : ∀ restart bytes, bytes ≠ [] → P false (bytes.drop 4) → P restart bytes)
    (restart : Bool) (bytes : List Byte) :
  P restart bytes
  := by
  by_cases h : bytes = []
  case pos =>
    rw [h]
    apply hnil
  case neg =>
    apply hstep restart bytes h
    apply bytes_induction hnil hstep
  termination_by bytes.length
  decreasing_by
    have hpos := List.length_pos_iff.mpr h
    rw [List.length_drop]
    omega

/-- What a command is for does not depend on the bytes that were in the buffer. -/
theorem commands_read_congr {bytes' : List Byte} (h : bytes.length = bytes'.length) :
  commands true chainLast restart bytes = commands true chainLast restart bytes'
  := by
  induction restart, bytes using bytes_induction generalizing bytes' with
  | hnil restart =>
      have hnil : bytes' = [] := List.eq_nil_of_length_eq_zero h.symm
      rw [hnil]
  | hstep restart bytes hne ih =>
      have hne' : bytes' ≠ [] := by
        intro hnil
        rw [hnil] at h
        exact hne (List.eq_nil_of_length_eq_zero h)
      have hdrop : (bytes.drop 4).length = (bytes'.drop 4).length := by
        rw [List.length_drop, List.length_drop, h]
      rw [commands_of_ne_nil hne, commands_of_ne_nil hne', ih hdrop, h]
      rfl

end Commands

/-! ### Transactions -/

/-- A command for 1 to 4 bytes, which it sends unless it reads. -/
structure Command.Sized (c : Command) : Prop where
  pos : 1 ≤ c.count
  le : c.count ≤ 4
  length : c.sent.length = if c.read then 0 else c.count

section Source

variable {ctl : Controller}

theorem logs_writeBuf (bs : List Byte) :
  Logs (writeBuf bs) fun _ new => new = bs.map (.output .mdbuf)
  := by
  induction bs with
  | nil => exact logs_pure rfl
  | cons b bs ih =>
      apply Logs.note_bind
      apply Logs.mono ih
      rintro _ _ rfl
      rfl

theorem logs_readBuf (n : ℕ) :
  Logs (readBuf ctl n) fun bytes new => bytes.length = n ∧ new = bytes.map (.input .mdbuf)
  := by
  induction n with
  | zero => exact logs_pure ⟨rfl, rfl⟩
  | succ n ih =>
      apply Logs.bind (logs_ask fun b => rfl)
      rintro b _ rfl
      apply Logs.bind ih
      rintro bs _ ⟨hlength, rfl⟩
      apply logs_pure
      rw [List.length_cons, hlength, List.append_nil]
      exact ⟨rfl, rfl⟩

theorem logs_poll (again : Byte → Bool) (n : ℕ) :
  Logs (poll ctl again n) fun status new =>
    ∃ polls : List Byte, polls.getLast? = some status ∧ new = polls.map (.input .sts)
  := by
  induction n with
  | zero => exact logs_ask fun status => ⟨[status], rfl, rfl⟩
  | succ n ih =>
      apply Logs.bind (logs_ask fun status => rfl)
      rintro status _ rfl
      apply Logs.ite
      · intro _
        apply Logs.mono ih
        rintro last _ ⟨polls, hlast, rfl⟩
        use status :: polls
        rw [List.getLast?_cons, hlast]
        exact ⟨rfl, rfl⟩
      · intro _
        apply logs_pure
        use [status]
        exact ⟨rfl, rfl⟩

theorem logs_issue (sent : List Byte) (creg : Byte) :
  Logs (issue ctl sent creg) fun status new => ∃ polls : List Byte,
    polls.getLast? = some status
      ∧ new = sent.map (.output .mdbuf) ++ [.output .cntl creg] ++ polls.map (.input .sts)
  := by
  apply Logs.bind (logs_writeBuf sent)
  rintro _ _ rfl
  apply Logs.note_bind
  apply Logs.mono (logs_poll ..)
  rintro status _ ⟨polls, hlast, rfl⟩
  use polls, hlast
  rw [List.append_assoc]
  rfl

/-- The result is 0 if there is neither an error nor a command that is still pending. -/
theorem logs_completion (status : Byte) :
  Logs (completion ctl status) fun result new => ∃ ext : Option Byte,
    new = (ext.map (Event.input .extsts)).toList
      ∧ (result = 0 ↔ status &&& stsErr = 0 ∧ status &&& stsPt = 0)
  := by
  apply Logs.ite
  · intro herr
    apply Logs.bind (logs_ask fun ext => rfl)
    rintro ext _ rfl
    apply logs_pure
    use some ext, rfl
    constructor
    · intro hzero
      exfalso
      revert hzero
      split_ifs <;> decide
    · intro h
      exact absurd h.1 herr
  · intro herr
    apply logs_pure
    use none, rfl
    rw [not_not] at herr
    split_ifs with hpt
    case pos =>
      constructor
      · rintro ⟨⟩
      · intro h
        exact absurd h.2 hpt
    case neg => exact ⟨fun _ => ⟨herr, not_not.mp hpt⟩, fun _ => rfl⟩

end Source

/-! ### What is left to do -/

/-- The first of the commands for the bytes from `tran` on. -/
theorem commands_drop (read chainLast restart : Bool) {bytes : List Byte} {tran bc : ℕ}
    (h : tran < bytes.length)
    (hbc : bc = if bytes.length - tran > 4 then 4 else bytes.length - tran) :
  commands read chainLast restart (bytes.drop tran) =
    { count := bc
      sent := if read then [] else (bytes.drop tran).take bc
      read := read
      chain := chainLast || tran + bc ≠ bytes.length
      restart := restart } :: commands read chainLast false (bytes.drop (tran + bc))
  := by
  have hne : bytes.drop tran ≠ [] := fun hnil => by
    have hle := List.drop_eq_nil_iff.mp hnil
    omega
  have hlength : (bytes.drop tran).length = bytes.length - tran := List.length_drop
  rw [commands_of_ne_nil hne, List.drop_drop, hlength]
  by_cases hmore : bytes.length - tran > 4
  case pos =>
    rw [if_pos hmore] at hbc
    have hmin : min (bytes.length - tran) 4 = 4 := by omega
    have hchain : tran + 4 ≠ bytes.length := by omega
    rw [hbc, hmin, decide_eq_true hmore, decide_eq_true hchain]
  case neg =>
    rw [if_neg hmore] at hbc
    have hmin : min (bytes.length - tran) 4 = bc := by omega
    have hchain : ¬ tran + bc ≠ bytes.length := by omega
    have htake : (bytes.drop tran).take 4 = (bytes.drop tran).take bc := by
      rw [List.take_of_length_le (by omega), List.take_of_length_le (by omega)]
    have hdrop : bytes.drop (tran + 4) = bytes.drop (tran + bc) := by
      rw [List.drop_of_length_le (by omega), List.drop_of_length_le (by omega)]
    rw [hmin, htake, hdrop, decide_eq_false hmore, decide_eq_false hchain]

namespace State

variable (cmdType : Bool) (addr : List Byte) (s : State)

/-- The next command. -/
def command : Command where
  count := s.bc addr
  sent := s.sent cmdType addr
  read := s.reading cmdType
  chain := (!cmdType && s.inAddr) || s.tran + s.bc addr ≠ s.cnt addr
  restart := s.creg ≠ 0

/-- The commands that are still to be issued. -/
def remaining : List Command :=
  if s.inAddr then
    commands false (!cmdType) false (addr.drop s.tran) ++ commands cmdType false cmdType s.data
  else commands cmdType false (s.creg ≠ 0) (s.data.drop s.tran)

/-- How many bytes are still to be transferred. -/
def left : ℕ :=
  if s.inAddr then addr.length - s.tran + s.data.length else s.data.length - s.tran

/-- How many bytes of the data are done. -/
def filled : ℕ := if s.inAddr then 0 else s.tran

/-- The address is left when it is done, and only then a repeated start may be needed. -/
structure Valid : Prop where
  creg : s.creg = 0 ∨ s.creg = cntlRpst
  tran : s.tran ≤ s.cnt addr
  inAddr : s.inAddr → s.tran < addr.length ∧ s.creg = 0

variable {cmdType addr s}

theorem bc_pos (hs : s.Valid addr) (h : s.tran ≠ s.cnt addr) :
  1 ≤ s.bc addr
  := by
  have htran := hs.tran
  unfold bc
  split_ifs <;> omega

theorem tran_bc_le (hs : s.Valid addr) :
  s.tran + s.bc addr ≤ s.cnt addr
  := by
  have htran := hs.tran
  unfold bc
  split_ifs <;> omega

/-- The bits of the control register are set in another order. -/
theorem control_eq (hs : s.Valid addr) :
  s.control cmdType addr = (s.command cmdType addr).creg
  := by
  unfold control Command.creg command
  generalize ((!cmdType && s.inAddr) || s.tran + s.bc addr ≠ s.cnt addr) = chain
  generalize s.reading cmdType = read
  obtain hcreg | hcreg := hs.creg
  case inl =>
    rw [hcreg]
    cases chain <;> cases read <;> simp
  case inr =>
    have hrestart : decide (s.creg ≠ 0) = true := by
      rw [hcreg]
      decide
    rw [hrestart, hcreg]
    cases chain <;> cases read <;> simp <;> ac_rfl

section Advance

variable {data : List Byte} (r : ℕ) (hs : s.Valid addr) (htran : s.tran ≠ s.cnt addr)
  (hlength : data.length = s.data.length)

theorem result_advance :
  (s.advance cmdType addr r data).result = r
  := by
  unfold advance
  split_ifs <;> rfl

theorem data_advance :
  (s.advance cmdType addr r data).data = data
  := by
  unfold advance
  split_ifs <;> rfl

/-- The data follow after the last byte of the address. -/
theorem advance_of_end (hend : s.inAddr ∧ s.tran + s.bc addr = s.cnt addr) :
  s.advance cmdType addr r data = ⟨false, 0, r, if cmdType then cntlRpst else 0, data⟩
  := if_pos hend

theorem advance_of_not_end (hend : ¬ (s.inAddr ∧ s.tran + s.bc addr = s.cnt addr)) :
  s.advance cmdType addr r data = ⟨s.inAddr, s.tran + s.bc addr, r, 0, data⟩
  := if_neg hend

variable (cmdType)

include hs hlength in
theorem valid_advance :
  (s.advance cmdType addr r data).Valid addr
  := by
  have hle := tran_bc_le hs
  by_cases hend : s.inAddr ∧ s.tran + s.bc addr = s.cnt addr
  case pos =>
    rw [advance_of_end r hend]
    constructor
    · cases cmdType
      · exact Or.inl rfl
      · exact Or.inr rfl
    · exact Nat.zero_le _
    · rintro ⟨⟩
  case neg =>
    rw [advance_of_not_end r hend]
    constructor
    · exact Or.inl rfl
    · unfold cnt ptr at hle ⊢
      change s.tran + s.bc addr ≤ (if s.inAddr then addr else data).length
      split_ifs at hle ⊢
      · exact hle
      · rw [hlength]
        exact hle
    · intro hin
      constructor
      · have hcnt : s.cnt addr = addr.length := congrArg List.length (if_pos hin)
        have hne : s.tran + s.bc addr ≠ s.cnt addr := fun h => hend ⟨hin, h⟩
        change s.tran + s.bc addr < addr.length
        omega
      · rfl

include hs htran hlength in
/-- A command is for one byte at least. -/
theorem left_advance :
  (s.advance cmdType addr r data).left addr < s.left addr
  := by
  have hpos := bc_pos hs htran
  have hle := tran_bc_le hs
  by_cases hend : s.inAddr ∧ s.tran + s.bc addr = s.cnt addr
  case pos =>
    have hleft : s.left addr = addr.length - s.tran + s.data.length := if_pos hend.1
    have hcnt : s.cnt addr = addr.length := congrArg List.length (if_pos hend.1)
    rw [advance_of_end r hend, hleft]
    change data.length - 0 < addr.length - s.tran + s.data.length
    omega
  case neg =>
    rw [advance_of_not_end r hend]
    unfold left
    unfold cnt ptr at hle
    change (if s.inAddr then addr.length - (s.tran + s.bc addr) + data.length
      else data.length - (s.tran + s.bc addr)) < _
    split_ifs at hle ⊢ <;> omega

variable {cmdType}

include hs htran hlength in
/-- The next command is the first one of those that remain. -/
theorem remaining_eq (hwrite : s.reading cmdType = false → data = s.data) :
  s.remaining cmdType addr =
    s.command cmdType addr :: (s.advance cmdType addr r data).remaining cmdType addr
  := by
  have hle := tran_bc_le hs
  cases hin : s.inAddr
  case false =>
    have hcnt : s.cnt addr = s.data.length := by
      unfold cnt ptr
      rw [hin]
      rfl
    have hbc : s.bc addr = if s.data.length - s.tran > 4 then 4 else s.data.length - s.tran := by
      rw [← hcnt]
      rfl
    have hlt : s.tran < s.data.length := by omega
    have hrest : commands cmdType false false (s.data.drop (s.tran + s.bc addr)) =
        commands cmdType false false (data.drop (s.tran + s.bc addr)) := by
      cases cmdType
      · rw [hwrite (by rw [reading, hin]; rfl)]
      · apply commands_read_congr
        rw [List.length_drop, List.length_drop, hlength]
    have hremaining : s.remaining cmdType addr =
        commands cmdType false (s.creg ≠ 0) (s.data.drop s.tran) := by
      unfold remaining
      rw [hin]
      rfl
    have hadvance : s.advance cmdType addr r data = ⟨false, s.tran + s.bc addr, r, 0, data⟩ := by
      unfold advance
      rw [hin]
      rfl
    rw [hremaining, commands_drop _ _ _ hlt hbc, hrest, hadvance]
    unfold command sent reading ptr
    rw [hin, hcnt, Bool.and_false]
    rfl
  case true =>
    have hcnt : s.cnt addr = addr.length := congrArg List.length (if_pos hin)
    have hbc : s.bc addr = if addr.length - s.tran > 4 then 4 else addr.length - s.tran := by
      rw [← hcnt]
      rfl
    have hlt := (hs.inAddr hin).1
    have hreading : s.reading cmdType = false := by
      rw [reading, hin]
      rfl
    have hremaining : s.remaining cmdType addr =
        commands false (!cmdType) false (addr.drop s.tran)
          ++ commands cmdType false cmdType s.data := by
      unfold remaining
      rw [hin]
      rfl
    have hcommand : s.command cmdType addr =
        { count := s.bc addr
          sent := (addr.drop s.tran).take (s.bc addr)
          read := false
          chain := !cmdType || s.tran + s.bc addr ≠ addr.length
          restart := false } := by
      unfold command sent ptr
      rw [hreading, hin, hcnt, (hs.inAddr hin).2, Bool.and_true]
      rfl
    have hrest : (s.advance cmdType addr r data).remaining cmdType addr =
        commands false (!cmdType) false (addr.drop (s.tran + s.bc addr))
          ++ commands cmdType false cmdType s.data := by
      rw [hwrite hreading]
      by_cases hend : s.inAddr ∧ s.tran + s.bc addr = s.cnt addr
      case pos =>
        rw [advance_of_end r hend, hend.2, hcnt, List.drop_length, commands_nil, List.nil_append]
        cases cmdType
        · rfl
        · rfl
      case neg =>
        rw [advance_of_not_end r hend]
        unfold remaining
        rw [hin]
        rfl
    rw [hremaining, commands_drop _ _ _ hlt hbc, hcommand, hrest]
    rfl

end Advance

end State

/-! ### Runs of the loop -/

section Loop

variable {ctl : Controller} {cmdType : Bool} {addr : List Byte}

/-- What was received replaces as many bytes of the data. -/
theorem logs_fetch (s : State) (status : Byte) (result : ℕ) :
  Logs (fetch ctl cmdType addr s status result) fun r new => ∃ received : List Byte,
    new = received.map (.input .mdbuf)
      ∧ received.length = (if s.reading cmdType ∧ r.1 = 0 then s.bc addr else 0)
      ∧ r.2 = s.data.take s.tran ++ received ++ s.data.drop (s.tran + received.length)
      ∧ (r.1 = 0 ↔ result = 0 ∧ (s.reading cmdType → status &&& stsMdbs ≠ 0))
  := by
  have hsame : s.data = s.data.take s.tran ++ [] ++ s.data.drop (s.tran + 0) := by
    rw [List.append_nil, Nat.add_zero, List.take_append_drop]
  apply Logs.ite
  · rintro ⟨hreading, rfl⟩
    apply Logs.ite
    · intro hmdbs
      apply Logs.bind (logs_readBuf _)
      rintro bytes _ ⟨hlength, rfl⟩
      apply logs_pure
      use bytes
      rw [if_pos ⟨hreading, rfl⟩, hlength]
      exact ⟨List.append_nil _, rfl, rfl, fun _ => ⟨rfl, fun _ => hmdbs⟩, fun _ => rfl⟩
    · intro hmdbs
      apply logs_pure
      use [], rfl
      have hfail : iicNokData ≠ 0 := by decide
      rw [if_neg (fun h => hfail h.2)]
      refine ⟨rfl, hsame, fun h => absurd h hfail, ?_⟩
      intro h
      exact absurd (h.2 hreading) hmdbs
  · intro hnot
    apply logs_pure
    use [], rfl
    refine ⟨(if_neg hnot).symm, hsame, ?_, And.left⟩
    intro hresult
    constructor
    · exact hresult
    · intro hreading
      exact absurd ⟨hreading, hresult⟩ hnot

/-- The body of the loop issues the next command.  Its result is 0 if that command is completed. -/
theorem logs_pass {s : State} (hs : s.Valid addr) :
  Logs (pass ctl cmdType addr s) fun s' new => ∃ t : Transcript,
    new = t.events ∧ t.Issues (s.command cmdType addr)
      ∧ (s'.result = 0 ↔ t.Completes (s.command cmdType addr))
      ∧ t.received.length = (if s.reading cmdType ∧ s'.result = 0 then s.bc addr else 0)
      ∧ s' = s.advance cmdType addr s'.result
        (s.data.take s.tran ++ t.received ++ s.data.drop (s.tran + t.received.length))
  := by
  apply Logs.bind (logs_issue ..)
  rintro status _ ⟨polls, hlast, rfl⟩
  apply Logs.bind (logs_completion status)
  rintro result _ ⟨ext, rfl, hresult⟩
  apply Logs.bind (logs_fetch s status result)
  rintro r _ ⟨received, rfl, hlength, hdata, hr⟩
  apply logs_pure
  use ⟨s.sent cmdType addr, s.control cmdType addr, polls, ext, received⟩
  rw [State.result_advance]
  refine ⟨?_, ⟨rfl, State.control_eq hs⟩, ?_, hlength, ?_⟩
  · simp only [Transcript.events, List.append_assoc, List.append_nil]
  · constructor
    · intro hzero
      obtain ⟨hok, hmdbs⟩ := hr.mp hzero
      constructor
      · exact ⟨status, hlast, (hresult.mp hok).1, (hresult.mp hok).2, hmdbs⟩
      · change received.length = if s.reading cmdType then s.bc addr else 0
        rw [hlength]
        apply if_congr _ rfl rfl
        exact ⟨And.left, fun h => ⟨h, hzero⟩⟩
    · rintro ⟨⟨last, hlast', herr, hpt, hmdbs⟩, -⟩
      obtain rfl : status = last := Option.some.inj (hlast.symm.trans hlast')
      exact hr.mpr ⟨hresult.mpr ⟨herr, hpt⟩, hmdbs⟩
  · rw [hdata]

/-- The loop ends after a failure. -/
theorem loop_of_failed {s : State} (n : ℕ) (h : s.result ≠ 0) :
  loop ctl cmdType addr n s = pure s
  := by
  cases n with
  | zero => rfl
  | succ n => exact if_neg fun hloop => h hloop.2

/-- When all is done, the data are complete and no command remains. -/
theorem remaining_of_end (cmdType : Bool) {s : State} (hs : s.Valid addr)
    (h : s.tran = s.cnt addr) :
  s.remaining cmdType addr = [] ∧ s.data.take s.filled = s.data
  := by
  have hin : ¬ s.inAddr := fun hin => by
    have hlt := (hs.inAddr hin).1
    have hcnt : s.cnt addr = addr.length := congrArg List.length (if_pos hin)
    omega
  have hcnt : s.cnt addr = s.data.length := congrArg List.length (if_neg hin)
  have hremaining : s.remaining cmdType addr =
      commands cmdType false (s.creg ≠ 0) (s.data.drop s.tran) := if_neg hin
  have hfilled : s.filled = s.tran := if_neg hin
  rw [hremaining, hfilled, h, hcnt, List.drop_length, commands_nil, List.take_length]
  exact ⟨rfl, rfl⟩

theorem tran_of_left_zero {s : State} (hs : s.Valid addr) (h : s.left addr = 0) :
  s.tran = s.cnt addr
  := by
  have hle := hs.tran
  unfold State.cnt State.ptr at hle ⊢
  unfold State.left at h
  split_ifs at h hle ⊢ with hin
  case pos =>
    have hlt := (hs.inAddr hin).1
    omega
  case neg => omega

/-- What a command receives is put into the data where the loop is, and nothing else changes. -/
theorem splice_spec {s : State} {r : ℕ} {received data : List Byte} (hs : s.Valid addr)
    (hlength : received.length = if s.reading cmdType ∧ r = 0 then s.bc addr else 0)
    (hdata : data = s.data.take s.tran ++ received ++ s.data.drop (s.tran + received.length)) :
  data.length = s.data.length ∧ (s.reading cmdType = false → data = s.data)
    ∧ (r = 0 → cmdType = true →
      data.take (s.advance cmdType addr r data).filled = s.data.take s.filled ++ received)
  := by
  have hnone : received = [] → data = s.data := by
    intro hnil
    rw [hdata, hnil, List.append_nil]
    exact List.take_append_drop ..
  have hwrite : s.reading cmdType = false → received = [] := by
    intro hreading
    rw [hreading, if_neg (fun h => Bool.false_ne_true h.1)] at hlength
    exact List.eq_nil_of_length_eq_zero hlength
  have hle := State.tran_bc_le hs
  cases hin : s.inAddr
  case true =>
    have hreading : s.reading cmdType = false := by
      rw [State.reading, hin]
      rfl
    have hnil := hwrite hreading
    rw [hnone hnil]
    refine ⟨rfl, fun _ => rfl, ?_⟩
    intro _ _
    have hfilled : s.filled = 0 := if_pos hin
    have hfilled' : (s.advance cmdType addr r s.data).filled = 0 := by
      by_cases hend : s.inAddr ∧ s.tran + s.bc addr = s.cnt addr
      case pos =>
        rw [State.advance_of_end r hend]
        rfl
      case neg =>
        rw [State.advance_of_not_end r hend]
        exact if_pos hin
    rw [hfilled, hfilled', hnil]
    rfl
  case false =>
    have hcnt : s.cnt addr = s.data.length := by
      unfold State.cnt State.ptr
      rw [hin]
      rfl
    have hbound : received.length ≤ s.bc addr := by
      rw [hlength]
      split_ifs
      · exact Nat.le_refl _
      · exact Nat.zero_le _
    refine ⟨?_, fun hreading => hnone (hwrite hreading), ?_⟩
    · rw [hdata, List.length_append, List.length_append, List.length_take, List.length_drop]
      omega
    · rintro hr rfl
      have hreading : s.reading true = true := by
        rw [State.reading, hin]
        rfl
      rw [if_pos ⟨hreading, hr⟩] at hlength
      have hfilled : s.filled = s.tran := by
        unfold State.filled
        rw [hin]
        rfl
      have hfilled' : (s.advance true addr r data).filled = s.tran + s.bc addr := by
        unfold State.advance State.filled
        rw [hin]
        rfl
      rw [hfilled, hfilled', hdata]
      apply List.take_left'
      rw [List.length_append, List.length_take, hlength]
      omega

/-- The loop issues the commands that remain, in their order, up to the first that fails.  What is
written does not change, and what is read is put behind what was there before. -/
theorem logs_loop (n : ℕ) {s : State} (hs : s.Valid addr) (hok : s.result = 0)
    (hleft : s.left addr ≤ n) :
  Logs (loop ctl cmdType addr n s) fun s' new => ∃ ts : List Transcript,
    new = ts.flatMap Transcript.events ∧ Follows (s.remaining cmdType addr) ts s'.result
      ∧ s'.data.length = s.data.length ∧ (cmdType = false → s'.data = s.data)
      ∧ (s'.result = 0 → cmdType = true →
        s'.data = s.data.take s.filled ++ ts.flatMap Transcript.received)
  := by
  have hend : ∀ {s : State}, s.Valid addr → s.tran = s.cnt addr → s.result = 0 →
      Logs (pure s) fun s' new => ∃ ts : List Transcript,
        new = ts.flatMap Transcript.events ∧ Follows (s.remaining cmdType addr) ts s'.result
          ∧ s'.data.length = s.data.length ∧ (cmdType = false → s'.data = s.data)
          ∧ (s'.result = 0 → cmdType = true →
            s'.data = s.data.take s.filled ++ ts.flatMap Transcript.received) := by
    intro s hs htran hok
    obtain ⟨hremaining, htake⟩ := remaining_of_end cmdType hs htran
    apply logs_pure
    use []
    rw [hremaining, hok, htake]
    exact ⟨rfl, .done, rfl, fun _ => rfl, fun _ _ => (List.append_nil _).symm⟩
  induction n generalizing s with
  | zero => exact hend hs (tran_of_left_zero hs (Nat.eq_zero_of_le_zero hleft)) hok
  | succ n ih =>
      apply Logs.ite
      · rintro ⟨htran, -⟩
        apply Logs.bind (logs_pass hs)
        rintro s' _ ⟨t, rfl, hissues, hcompletes, hreceived, hs'⟩
        generalize hdata : s.data.take s.tran ++ t.received
            ++ s.data.drop (s.tran + t.received.length) = data at hs'
        obtain ⟨hlength, hwrite, hread⟩ := splice_spec hs hreceived hdata.symm
        have hremaining := State.remaining_eq s'.result hs htran hlength hwrite
        rw [← hs'] at hremaining hread
        have hsdata : s'.data = data := by
          rw [hs', State.data_advance]
        rw [hremaining]
        by_cases hr : s'.result = 0
        case pos =>
          have hvalid := State.valid_advance cmdType s'.result hs hlength
          have hlt := State.left_advance cmdType s'.result hs htran hlength
          rw [← hs'] at hvalid hlt
          apply Logs.mono (ih hvalid hr (by omega))
          rintro s'' _ ⟨ts, rfl, hfollows, hlength', hwrite', hread'⟩
          use t :: ts, rfl, .next hissues (hcompletes.mp hr) hfollows
          refine ⟨by rw [hlength', hsdata, hlength], ?_, ?_⟩
          · intro hcmd
            rw [hwrite' hcmd, hsdata]
            apply hwrite
            rw [State.reading, hcmd, Bool.and_false]
          · intro hr' hcmd
            rw [hread' hr' hcmd, hsdata, hread hr hcmd, List.append_assoc]
            rfl
        case neg =>
          rw [loop_of_failed n hr]
          apply logs_pure
          use [t]
          refine ⟨rfl, .fail hissues (fun h => hr (hcompletes.mpr h)) hr, ?_, ?_, ?_⟩
          · rw [hsdata, hlength]
          · intro hcmd
            rw [hsdata]
            apply hwrite
            rw [State.reading, hcmd, Bool.and_false]
          · intro h
            exact absurd h hr
      · intro hnot
        apply hend hs _ hok
        by_contra htran
        exact hnot ⟨htran, hok⟩

end Loop

/-! ### Transfers -/

/-- A transfer with a result and the data afterwards: no command is given at the start, where the
controller may be busy, and then the commands are issued.  Data are not changed when they are
written; they were all received if reading succeeded. -/
def Transfers (read : Bool) (addr data : List Byte) (r : ℕ × List Byte) (log : List Event) : Prop :=
  ∃ (start : List Event) (ts : List Transcript),
    log = start ++ ts.flatMap Transcript.events
      ∧ (∀ v, Event.output .cntl v ∉ start)
      ∧ (ts = [] ∧ r.1 ≠ 0 ∨ Follows (expected read addr data) ts r.1)
      ∧ r.2.length = data.length
      ∧ (read = false → r.2 = data)
      ∧ (r.1 = 0 → read = true → r.2 = ts.flatMap Transcript.received)

section Transfer

variable (ctl : Controller) (cmdType : Bool) (addr : List Byte) (chip : Byte) {data : List Byte}

end Transfer

/-- The bytes of an address, the most significant one first. -/
def addrBytes (addr : Word) (alen : ℕ) : List Byte := (wordBytes addr).drop (4 - alen)

end I2c
