import UBoot.Disk.SamIde
import UBoot.Lib.Retry

/-!
# Reading from an ATAPI drive

`local_atapi_issue`, `local_atapi_issue_autoreq` and `local_atapi_read` of
`board/ACube/common/sam_ide.c`, and what a drive does while it is talked to.

A command counts as done although the drive has not transferred all that was asked for if it
announces less, or an error without a sense key, or if the sense key that is asked for then is zero,
which it also is if the drive does not give any.  `right_iff` says that these, and block numbers of
more than 32 bits, are all that goes wrong.
-/

namespace Atapi

open Memory SamIde

/-! ### One command -/

/-- What a drive does while a command is given: `status w i` is the status when it is read for the
time `i` in the wait `w`, and `data` what the data port gives. -/
structure Behaviour where
  status : ℕ → ℕ → Byte
  error : Byte
  sectCnt : Byte
  cylLow : Byte
  cylHigh : Byte
  data : ℕ → Byte

/-- `ATAPI_TIME_OUT`. -/
def atapiTimeOut : ℕ := 7000

/-- The loop of `local_atapi_wait_mask`. -/
def waitMaskLoop (status : ℕ → Byte) (mask res : Byte) : ℕ → ℕ → Byte
  | 0, i => status i
  | delay + 1, i =>
    if status i &&& mask ≠ res then
      if status i &&& statErr = statErr then status i
      else waitMaskLoop status mask res delay (i + 1)
    else status i

/-- `local_atapi_wait_mask`. -/
def waitMask (b : Behaviour) (w : ℕ) (mask res : Byte) : Byte :=
  waitMaskLoop (b.status w) mask res (10 * atapiTimeOut) 0

/-- `local_input_data_shorts`. -/
def inputDataShorts (data : ℕ → Byte) : ℕ → ℕ → ℕ → (ℕ → Byte) → ℕ → Byte
  | 0, _, _, buf => buf
  | shorts + 1, i, dbuf, buf =>
    inputDataShorts data shorts (i + 2) (dbuf + 2)
      (Function.update (Function.update buf dbuf (data i)) (dbuf + 1) (data (i + 1)))

/-- The number of bytes that the drive announces. -/
def Behaviour.count (b : Behaviour) : ℕ := (b.cylHigh.toNat <<< 8) + b.cylLow.toNat

/-- The buffer after the data transfer; what is written to the drive is not followed up. -/
def received (b : Behaviour) (buffer : ℕ) (buf : ℕ → Byte) : ℕ → Byte :=
  if b.count ≠ 0 then
    if b.sectCnt &&& 0x02 = 0 then buf else inputDataShorts b.data (b.count >>> 1) 0 buffer buf
  else buf

/-- `res` after the command block was sent: there is data, or there is none. -/
def sentRes (buflen : ℕ) : Byte := if buflen ≠ 0 then statDrq else 0

/-- The status after the command block was sent. -/
def Behaviour.sent (b : Behaviour) (buflen : ℕ) : Byte :=
  waitMask b 2 (statDrq ||| statBusy ||| statErr) (sentRes buflen)

/-- The status at the end. -/
def Behaviour.last (b : Behaviour) : Byte := waitMask b 3 (statBusy ||| statErr) 0

/-- `local_atapi_issue`: what is returned, and the buffer.  A length is not negative. -/
def issue (b : Behaviour) (buflen buffer : ℕ) (buf : ℕ → Byte) : Byte × (ℕ → Byte) :=
  let mask := statBusy ||| statDrq
  if waitMask b 0 mask 0 &&& mask ≠ 0 then (0xff, buf)
  else
    let mask := statDrq ||| statBusy ||| statErr
    if waitMask b 1 mask statDrq &&& mask ≠ statDrq then (0xff, buf)
    else if b.sent buflen &&& mask ≠ sentRes buflen then
      if b.sent buflen &&& statErr ≠ 0 then (b.error >>> 4, buf) else (0xff, buf)
    else
      let n := b.count
      if n > buflen then (0xff, buf)
      else
        let buf := received b buffer buf
        if b.last &&& statErr = statErr then (b.error >>> 4, buf) else (0, buf)

/-! ### With request sense -/

/-- An attempt: the command, and the request sense if there is one. -/
structure Attempt where
  command : Behaviour
  sense : Behaviour

/-- `sense_data`. -/
def senseData (b : Behaviour) : ℕ → Byte := (issue b 18 0 fun _ => 0).2

/-- The state of `local_atapi_issue_autoreq` at `retry`. -/
structure Loop where
  unitattn : ℕ
  notready : ℕ
  retrycnt : ℕ
  buf : ℕ → Byte

/-- The retries that are left. -/
def Loop.left (s : Loop) : ℕ := s.unitattn + s.notready + (4 - s.retrycnt)

/-- `local_atapi_issue_autoreq` from `retry` on. -/
def attempt (buflen buffer : ℕ) (s : Loop) (a : Attempt) : Retry.Next Loop (Byte × (ℕ → Byte)) :=
  let (res, buf) := issue a.command buflen buffer s.buf
  if res = 0 then .stop (0, buf)
  else if res = 0xff then .stop (0xff, buf)
  else
    let key := senseData a.sense 2 &&& 0xf
    let asc := senseData a.sense 12
    let ascq := senseData a.sense 13
    if key = 0 then .stop (0, buf)
    else if key = 5 ∧ asc = 0x24 ∧ ascq = 0 then .stop (0, buf)
    else if key = 6 ∨ asc = 0x29 ∨ asc = 0x28 then
      if 0 < s.unitattn then .retry { s with unitattn := s.unitattn - 1, buf := buf }
      else .stop (0xff, buf)
    else if asc = 0x4 ∧ ascq = 0x1 then
      if 0 < s.notready then .retry { s with notready := s.notready - 1, buf := buf }
      else .stop (0xff, buf)
    else if asc = 0x3a then .stop (0xff, buf)
    else if key = 0x0b then
      if s.retrycnt < 4 then .retry { s with retrycnt := s.retrycnt + 1, buf := buf }
      else .stop (0xff, buf)
    else if key = 0x02 ∧ asc = 0x04 ∧ ascq = 0x01 then
      if s.retrycnt < 4 then .retry { s with retrycnt := s.retrycnt + 1, buf := buf }
      else .stop (0xff, buf)
    else .stop (0xff, buf)

theorem left_lt {buflen buffer : ℕ} (s : Loop) (a : Attempt) (s' : Loop)
    (h : attempt buflen buffer s a = .retry s') :
  s'.left < s.left
  := by
  replace h := Retry.retry_of_ite_stop (Retry.retry_of_ite_stop h)
  replace h := Retry.retry_of_ite_stop (Retry.retry_of_ite_stop h)
  unfold Loop.left
  -- each of the four retries uses up one of the three counters
  obtain ⟨hpos, rfl⟩ | h := Retry.retry_of_ite_retry h
  · dsimp only
    omega
  obtain ⟨hpos, rfl⟩ | h := Retry.retry_of_ite_retry h
  · dsimp only
    omega
  obtain ⟨hlt, rfl⟩ | h := Retry.retry_of_ite_retry (Retry.retry_of_ite_stop h)
  · dsimp only
    omega
  obtain ⟨hlt, rfl⟩ | h := Retry.retry_of_ite_retry h
  · dsimp only
    omega
  · cases h

/-- `ATAPI_UNIT_ATTN`. -/
def atapiUnitAttn : ℕ := 10

/-- `ATAPI_DRIVE_NOT_READY`. -/
def atapiDriveNotReady : ℕ := 100

/-- `local_atapi_issue_autoreq`: what is returned, the buffer, and the attempts. -/
def issueAutoreq (buflen buffer : ℕ) (dev : ℕ → Attempt) (k : ℕ) (buf : ℕ → Byte) :
    (Byte × (ℕ → Byte)) × List Attempt :=
  Retry.run (attempt buflen buffer) Loop.left left_lt dev k
    ⟨atapiUnitAttn, atapiDriveNotReady, 0, buf⟩

/-! ### The blocks -/

/-- `ATAPI_READ_BLOCK_SIZE`. -/
def atapiReadBlockSize : ℕ := 2048

/-- `ATAPI_READ_MAX_BLOCK`. -/
def atapiReadMaxBlock : ℕ := 2048 / atapiReadBlockSize

/-- `ATAPI_CMD_READ_12`. -/
def cmdRead12 : Byte := 0xa8

/-- The command block for `cnt` blocks from `blknr` on. -/
def readCcb (blknr cnt : ℕ) : List Byte :=
  [cmdRead12, 0, byteAt blknr 24, byteAt blknr 16, byteAt blknr 8, byteAt blknr 0,
    byteAt cnt 24, byteAt cnt 16, byteAt cnt 8, byteAt cnt 0, 0, 0]

/-- What a drive was asked, and the attempts. -/
structure Asked where
  ccb : List Byte
  attempts : List Attempt

/-- What `local_atapi_read` returns, the buffer, and what the drive was asked. -/
structure Run where
  n : ℕ
  buf : ℕ → Byte
  log : List Asked

/-- `cnt`, the blocks of the next command. -/
def nextCnt (blkcnt : ℕ) : ℕ := if blkcnt > atapiReadMaxBlock then atapiReadMaxBlock else blkcnt

theorem nextCnt_eq_min (blkcnt : ℕ) :
  nextCnt blkcnt = min blkcnt 1
  := by
  have hmax : atapiReadMaxBlock = 1 := rfl
  rw [nextCnt, hmax]
  split <;> omega

/-- The loop of `local_atapi_read`; `k` is the number of the next attempt. -/
def readLoop (dev : ℕ → Attempt) (blknr blkcnt n buffer k : ℕ) (buf : ℕ → Byte) : Run :=
  let cnt := nextCnt blkcnt
  let r := issueAutoreq (cnt * atapiReadBlockSize) buffer dev k buf
  let asked : Asked := ⟨readCcb blknr cnt, r.2⟩
  if r.1.1 = 0xff then ⟨n, r.1.2, [asked]⟩
  else if _h : blkcnt - cnt > 0 then
    let rest := readLoop dev (blknr + cnt) (blkcnt - cnt) (n + cnt)
      (buffer + cnt * atapiReadBlockSize) (k + r.2.length) r.1.2
    { rest with log := asked :: rest.log }
  else ⟨n + cnt, r.1.2, [asked]⟩
  termination_by blkcnt
  decreasing_by
    simp only [cnt, nextCnt_eq_min] at *
    omega

/-- `local_atapi_read`. -/
def atapiRead (dev : ℕ → Attempt) (blknr blkcnt buffer : ℕ) (buf : ℕ → Byte) : Run :=
  readLoop dev blknr blkcnt 0 buffer 0 buf

/-! ### What becomes of a command -/

namespace Behaviour

variable (b : Behaviour) (buflen : ℕ)

/-- The drive takes the command block. -/
def Accepts : Prop :=
  waitMask b 0 (statBusy ||| statDrq) 0 &&& (statBusy ||| statDrq) = 0
    ∧ waitMask b 1 (statDrq ||| statBusy ||| statErr) statDrq &&& (statDrq ||| statBusy ||| statErr)
      = statDrq

/-- It has the data, or there is none, and announces no more than it was asked for. -/
structure Announces : Prop where
  accepts : b.Accepts
  sent : b.sent buflen &&& (statDrq ||| statBusy ||| statErr) = sentRes buflen
  count : b.count ≤ buflen

/-- It reports an error instead. -/
structure Refuses : Prop where
  accepts : b.Accepts
  sent : b.sent buflen &&& (statDrq ||| statBusy ||| statErr) ≠ sentRes buflen
  error : b.sent buflen &&& statErr ≠ 0

/-- It reports an error, then or at the end. -/
def Fails : Prop := b.Refuses buflen ∨ b.Announces buflen ∧ b.last &&& statErr = statErr

/-- It transfers all that it was asked for to the host. -/
structure Complete : Prop where
  announces : b.Announces buflen
  count : b.count = buflen
  toHost : b.sectCnt &&& 0x02 ≠ 0

end Behaviour

section Issue

variable (b : Behaviour) (buflen buffer : ℕ) (buf : ℕ → Byte)

theorem inputDataShorts_eq (data : ℕ → Byte) (shorts i dbuf : ℕ) :
  inputDataShorts data shorts i dbuf buf = store buf dbuf (read data i (2 * shorts))
  := by
  induction shorts generalizing i dbuf buf with
  | zero => rfl
  | succ shorts ih =>
    rw [inputDataShorts, ih, Nat.mul_succ, Memory.read, Memory.read, store, store]

theorem issue_of_not_accepts (h : ¬ b.Accepts) :
  issue b buflen buffer buf = (0xff, buf)
  := by
  rw [Behaviour.Accepts, not_and_or] at h
  rw [issue]
  obtain h | h := h
  · exact if_pos h
  · simp only
    rw [if_pos h, ite_self]

theorem issue_of_accepts (h : b.Accepts) :
  issue b buflen buffer buf
    = if b.sent buflen &&& (statDrq ||| statBusy ||| statErr) ≠ sentRes buflen then
        if b.sent buflen &&& statErr ≠ 0 then (b.error >>> 4, buf) else (0xff, buf)
      else if b.count > buflen then (0xff, buf)
      else if b.last &&& statErr = statErr then (b.error >>> 4, received b buffer buf)
      else (0, received b buffer buf)
  := by
  rw [issue]
  simp only
  rw [if_neg (not_ne_iff.mpr h.1), if_neg (not_ne_iff.mpr h.2)]

/-- The data is only received if the drive announces it. -/
theorem issue_of_announces (h : b.Announces buflen) :
  issue b buflen buffer buf
    = (if b.last &&& statErr = statErr then b.error >>> 4 else 0, received b buffer buf)
  := by
  rw [issue_of_accepts _ _ _ _ h.accepts, if_neg (not_ne_iff.mpr h.sent),
    if_neg (not_lt.mpr h.count)]
  split <;> rfl

theorem issue_of_refuses (h : b.Refuses buflen) :
  issue b buflen buffer buf = (b.error >>> 4, buf)
  := by
  rw [issue_of_accepts _ _ _ _ h.accepts, if_pos h.sent, if_pos h.error]

theorem issue_of_not (hannounces : ¬ b.Announces buflen) (hrefuses : ¬ b.Refuses buflen) :
  issue b buflen buffer buf = (0xff, buf)
  := by
  by_cases haccepts : b.Accepts
  · rw [issue_of_accepts _ _ _ _ haccepts]
    split
    case isTrue hsent =>
      rw [if_neg fun herror => hrefuses ⟨haccepts, hsent, herror⟩]
    case isFalse hsent =>
      apply if_pos
      by_contra hcount
      exact hannounces ⟨haccepts, not_ne_iff.mp hsent, not_lt.mp hcount⟩
  · exact issue_of_not_accepts _ _ _ _ haccepts

/-- All that was asked for is stored. -/
theorem issue_of_complete (h : b.Complete buflen) (heven : buflen % 2 = 0) :
  (issue b buflen buffer buf).2 = store buf buffer (read b.data 0 buflen)
  := by
  have hshift : 2 * (buflen >>> 1) = buflen := by
    rw [Nat.shiftRight_eq_div_pow]
    omega
  rw [issue_of_announces _ _ _ _ h.announces, received, h.count, if_neg h.toHost,
    inputDataShorts_eq, hshift]
  by_cases hzero : buflen = 0
  · rw [if_neg (not_ne_iff.mpr hzero), hzero]
    rfl
  · rw [if_pos hzero]

/-- Only the bytes that were asked for are changed. -/
theorem issue_of_lt {q : ℕ} (hq : q < buffer) :
  (issue b buflen buffer buf).2 q = buf q
  := by
  by_cases hannounces : b.Announces buflen
  · rw [issue_of_announces _ _ _ _ hannounces, received]
    simp only
    split_ifs
    · rfl
    · rw [inputDataShorts_eq]
      exact store_of_lt _ hq
    · rfl
  · by_cases hrefuses : b.Refuses buflen
    · rw [issue_of_refuses _ _ _ _ hrefuses]
    · rw [issue_of_not _ _ _ _ hannounces hrefuses]

end Issue

/-! ### What becomes of an attempt -/

/-- The sense key is zero, or it says that there is an illegal value in the command block. -/
def SenseOk (b : Behaviour) : Prop :=
  senseData b 2 &&& 0xf = 0
    ∨ senseData b 2 &&& 0xf = 5 ∧ senseData b 12 = 0x24 ∧ senseData b 13 = 0

/-- The attempt counts as done: there was no error, or none that has a sense key. -/
def Attempt.Done (a : Attempt) (buflen : ℕ) : Prop :=
  a.command.Announces buflen ∧ a.command.last &&& statErr ≠ statErr
    ∨ a.command.Fails buflen ∧ (a.command.error >>> 4 = 0 ∨ SenseOk a.sense)

section Attempt

variable {buflen buffer : ℕ} {s : Loop} {a : Attempt}

theorem shiftRight_ne (x : Byte) :
  x >>> 4 ≠ 0xff
  := by
  intro h
  have htoNat := congrArg UInt8.toNat h
  have hlt := x.toNat_lt
  rw [UInt8.toNat_shiftRight, Nat.shiftRight_eq_div_pow] at htoNat
  have hfour : (4 : Byte).toNat % 8 = 4 := rfl
  have hff : (0xff : Byte).toNat = 255 := rfl
  rw [hfour, hff] at htoNat
  omega

theorem not_announces_of_refuses {b : Behaviour} (h : b.Refuses buflen) :
  ¬ b.Announces buflen
  := fun hannounces => h.sent hannounces.sent

/-- What the command returns. -/
theorem issue_fst_cases (b : Behaviour) (buflen buffer : ℕ) (buf : ℕ → Byte) :
  (b.Announces buflen ∧ b.last &&& statErr ≠ statErr ∧ (issue b buflen buffer buf).1 = 0)
    ∨ (b.Fails buflen ∧ (issue b buflen buffer buf).1 = b.error >>> 4)
    ∨ (¬ b.Announces buflen ∧ ¬ b.Fails buflen ∧ (issue b buflen buffer buf).1 = 0xff)
  := by
  by_cases hannounces : b.Announces buflen
  · rw [issue_of_announces _ _ _ _ hannounces]
    by_cases hlast : b.last &&& statErr = statErr
    · exact Or.inr (Or.inl ⟨Or.inr ⟨hannounces, hlast⟩, if_pos hlast⟩)
    · exact Or.inl ⟨hannounces, hlast, if_neg hlast⟩
  · right
    by_cases hrefuses : b.Refuses buflen
    · rw [issue_of_refuses _ _ _ _ hrefuses]
      exact Or.inl ⟨Or.inl hrefuses, rfl⟩
    · rw [issue_of_not _ _ _ _ hannounces hrefuses]
      refine Or.inr ⟨hannounces, ?_, rfl⟩
      rintro (h | h)
      · exact hrefuses h
      · exact hannounces h.1

/-- All that an attempt can do: it is done, or it ends with an error, or it is made again. -/
theorem attempt_cases (buflen buffer : ℕ) (s : Loop) (a : Attempt) :
  (a.Done buflen
      ∧ attempt buflen buffer s a = .stop (0, (issue a.command buflen buffer s.buf).2))
    ∨ (¬ a.Done buflen
      ∧ (attempt buflen buffer s a = .stop (0xff, (issue a.command buflen buffer s.buf).2)
        ∨ ∃ s', s'.buf = (issue a.command buflen buffer s.buf).2
          ∧ attempt buflen buffer s a = .retry s'))
  := by
  rw [attempt]
  simp only
  obtain ⟨hannounces, hlast, hres⟩ | ⟨hfails, hres⟩ | ⟨hannounces, hfails, hres⟩ :=
    issue_fst_cases a.command buflen buffer s.buf
  · exact Or.inl ⟨Or.inl ⟨hannounces, hlast⟩, if_pos hres⟩
  · rw [hres]
    by_cases hkey : a.command.error >>> 4 = 0
    · exact Or.inl ⟨Or.inr ⟨hfails, Or.inl hkey⟩, if_pos hkey⟩
    · rw [if_neg hkey, if_neg (shiftRight_ne _)]
      by_cases hsense : SenseOk a.sense
      · refine Or.inl ⟨Or.inr ⟨hfails, Or.inr hsense⟩, ?_⟩
        obtain hzero | hfive := hsense
        · exact if_pos hzero
        · rw [if_pos hfive, ite_self]
      · right
        constructor
        · rintro (h | h)
          · obtain hrefuses | hend := hfails
            · exact not_announces_of_refuses hrefuses h.1
            · exact h.2 hend.2
          · exact h.2.elim hkey hsense
        · rw [SenseOk, not_or] at hsense
          rw [if_neg hsense.1, if_neg hsense.2]
          split_ifs <;> first | exact Or.inl rfl | exact Or.inr ⟨_, rfl, rfl⟩
  · right
    have hdone : ¬ a.Done buflen := by
      rintro (h | h)
      · exact hannounces h.1
      · exact hfails h.1
    refine ⟨hdone, Or.inl ?_⟩
    rw [hres]
    rfl

/-- What is known when the attempts for a block are over: only the last one may be done, which is
what is returned then; the buffer has its data if it was complete. -/
structure Over (buflen buffer : ℕ) (s : Loop) (r : (Byte × (ℕ → Byte)) × List Attempt) : Prop where
  last : ∃ init last, r.2 = init ++ [last] ∧ (∀ a ∈ init, ¬ a.Done buflen)
    ∧ (last.Done buflen ∧ r.1.1 = 0 ∨ ¬ last.Done buflen ∧ r.1.1 = 0xff)
    ∧ (last.command.Complete buflen → read r.1.2 buffer buflen = read last.command.data 0 buflen)
  frame : ∀ q < buffer, r.1.2 q = s.buf q

theorem over_of_stop (heven : buflen % 2 = 0) {c : Byte}
    (hc : a.Done buflen ∧ c = 0 ∨ ¬ a.Done buflen ∧ c = 0xff) :
  Over buflen buffer s ((c, (issue a.command buflen buffer s.buf).2), [a])
  := by
  constructor
  · use [], a, rfl, fun a' ha' => absurd ha' List.not_mem_nil, hc
    intro hcomplete
    have hread := read_store s.buf buffer (read a.command.data 0 buflen)
    rwa [length_read, ← issue_of_complete _ _ _ _ hcomplete heven] at hread
  · intro q hq
    exact issue_of_lt _ _ _ _ hq

theorem over_run (heven : buflen % 2 = 0) (dev : ℕ → Attempt) (k : ℕ) (s : Loop) :
  Over buflen buffer s (Retry.run (attempt buflen buffer) Loop.left left_lt dev k s)
  := by
  apply Retry.run_induction (Over buflen buffer)
  · intro s a r hstop
    obtain ⟨hdone, h⟩ | ⟨hdone, h | ⟨s', -, h⟩⟩ := attempt_cases buflen buffer s a
    · rw [hstop] at h
      cases h
      exact over_of_stop heven (Or.inl ⟨hdone, rfl⟩)
    · rw [hstop] at h
      cases h
      exact over_of_stop heven (Or.inr ⟨hdone, rfl⟩)
    · rw [hstop] at h
      cases h
  · rintro s a s' r hretry ⟨⟨init, last, hr, hinit, hlast, hdata⟩, hframe⟩
    obtain ⟨hdone, h⟩ | ⟨hdone, h | ⟨t, ht, h⟩⟩ := attempt_cases buflen buffer s a
    · rw [hretry] at h
      cases h
    · rw [hretry] at h
      cases h
    · rw [hretry] at h
      cases h
      constructor
      · use a :: init, last
        refine ⟨by rw [hr]; rfl, ?_, hlast, hdata⟩
        intro a' ha'
        obtain rfl | ha' := List.mem_cons.mp ha'
        · exact hdone
        · exact hinit a' ha'
      · intro q hq
        show r.1.2 q = s.buf q
        rw [hframe q hq, ht, issue_of_lt _ _ _ _ hq]

end Attempt

/-! ### What becomes of the blocks -/

/-- The block that a command block asks for. -/
def lba (ccb : List Byte) : ℕ :=
  2 ^ 24 * (ccb.getD 2 0).toNat + 2 ^ 16 * (ccb.getD 3 0).toNat + 2 ^ 8 * (ccb.getD 4 0).toNat
    + (ccb.getD 5 0).toNat

theorem lba_readCcb (blknr cnt : ℕ) :
  lba (readCcb blknr cnt) = blknr % 2 ^ 32
  := by
  simp only [lba, readCcb, List.getD_cons_zero, List.getD_cons_succ, toNat_byteAt]
  omega

/-- The attempts for a block that is read: only the last one is done. -/
structure Got (e : Asked) (blknr buffer : ℕ) (buf : ℕ → Byte) : Prop where
  ccb : e.ccb = readCcb blknr 1
  last : ∃ init last, e.attempts = init ++ [last]
    ∧ (∀ a ∈ init, ¬ a.Done atapiReadBlockSize) ∧ last.Done atapiReadBlockSize
    ∧ (last.command.Complete atapiReadBlockSize →
      read buf buffer atapiReadBlockSize = read last.command.data 0 atapiReadBlockSize)

/-- `m` blocks are read, and then there is an error, or there is no other block. -/
structure Reached (blknr n buffer : ℕ) (buf : ℕ → Byte) (r : Run) (m : ℕ) : Prop where
  n_eq : r.n = n + m
  got : ∀ i < m, ∃ e, r.log[i]? = some e
    ∧ Got e (blknr + i) (buffer + i * atapiReadBlockSize) r.buf
  rest : ∀ i e, m ≤ i → r.log[i]? = some e → ∀ a ∈ e.attempts, ¬ a.Done atapiReadBlockSize
  frame : ∀ q < buffer, r.buf q = buf q

section Blocks

variable (dev : ℕ → Attempt) {blknr blkcnt n buffer k : ℕ} {buf : ℕ → Byte}

theorem over_issueAutoreq (buffer k : ℕ) (buf : ℕ → Byte) :
  Over atapiReadBlockSize buffer ⟨atapiUnitAttn, atapiDriveNotReady, 0, buf⟩
    (issueAutoreq atapiReadBlockSize buffer dev k buf)
  := over_run (by decide) dev k _

/-- If there is an error no attempt for the block is done. -/
theorem reached_zero {e : Asked} {r : (Byte × (ℕ → Byte)) × List Attempt} {s : Loop}
    (hover : Over atapiReadBlockSize buffer s r) (he : e.attempts = r.2) (hres : r.1.1 = 0xff) :
  Reached blknr n buffer s.buf ⟨n, r.1.2, [e]⟩ 0
  := by
  obtain ⟨init, last, hr, hinit, hlast, -⟩ := hover.last
  have hnot : ¬ last.Done atapiReadBlockSize := by
    obtain ⟨-, hzero⟩ | ⟨hnot, -⟩ := hlast
    · rw [hres] at hzero
      exact absurd hzero (by decide)
    · exact hnot
  refine ⟨rfl, fun i hi => absurd hi (Nat.not_lt_zero i), ?_, hover.frame⟩
  intro i e' _ hi a ha
  have hmem := List.mem_of_getElem? hi
  obtain rfl := List.mem_singleton.mp hmem
  rw [he, hr, List.mem_append, List.mem_singleton] at ha
  obtain ha | rfl := ha
  · exact hinit a ha
  · exact hnot

/-- If there is no error the last attempt for the block is done. -/
theorem got_of_over {e : Asked} {r : (Byte × (ℕ → Byte)) × List Attempt} {s : Loop}
    (hover : Over atapiReadBlockSize buffer s r) (hccb : e.ccb = readCcb blknr 1)
    (he : e.attempts = r.2) (hres : r.1.1 ≠ 0xff) :
  Got e blknr buffer r.1.2
  := by
  obtain ⟨init, last, hr, hinit, hlast, hdata⟩ := hover.last
  refine ⟨hccb, init, last, by rw [he, hr], hinit, ?_, hdata⟩
  obtain ⟨hdone, -⟩ | ⟨-, herr⟩ := hlast
  · exact hdone
  · exact absurd herr hres

/-- The blocks behind the first one are read behind it. -/
theorem reached_succ {e : Asked} {r : Run} {b : ℕ → Byte} {m : ℕ}
    (hgot : Got e blknr buffer b) (hframe : ∀ q < buffer, b q = buf q)
    (h : Reached (blknr + 1) (n + 1) (buffer + atapiReadBlockSize) b r m) :
  Reached blknr n buffer buf { r with log := e :: r.log } (m + 1)
  := by
  constructor
  · show r.n = _
    rw [h.n_eq]
    omega
  · intro i hi
    cases i with
    | zero =>
      obtain ⟨init, last, hr, hinit, hdone, hdata⟩ := hgot.last
      refine ⟨e, rfl, ?_⟩
      rw [Nat.zero_mul, Nat.add_zero, Nat.add_zero]
      refine ⟨hgot.ccb, init, last, hr, hinit, hdone, ?_⟩
      intro hcomplete
      rw [← hdata hcomplete]
      apply read_congr
      intro q _ hq
      exact h.frame q hq
    | succ i =>
      obtain ⟨e', he', hgot'⟩ := h.got i (Nat.lt_of_succ_lt_succ hi)
      refine ⟨e', he', ?_⟩
      rw [← Nat.add_assoc, Nat.add_right_comm, Nat.succ_mul, Nat.add_comm (i * _), ← Nat.add_assoc]
      exact hgot'
  · intro i e' hi he'
    cases i with
    | zero => exact absurd hi (Nat.not_succ_le_zero m)
    | succ i => exact h.rest i e' (Nat.le_of_succ_le_succ hi) he'
  · intro q hq
    show r.buf q = buf q
    rw [h.frame q (by omega), hframe q hq]

theorem reached_readLoop (blknr n buffer k : ℕ) (buf : ℕ → Byte) (hcnt : 0 < blkcnt) :
  ∃ m, Reached blknr n buffer buf (readLoop dev blknr blkcnt n buffer k buf) m
  := by
  induction blkcnt using Nat.strong_induction_on generalizing blknr n buffer k buf with
  | _ blkcnt ih =>
    have hone : nextCnt blkcnt = 1 := by
      rw [nextCnt_eq_min]
      omega
    have hover := over_issueAutoreq dev buffer k buf
    rw [readLoop]
    simp only [hone, Nat.one_mul]
    split
    case isTrue hres => exact ⟨0, reached_zero hover rfl hres⟩
    case isFalse hres =>
      have hgot : Got ⟨readCcb blknr 1, (issueAutoreq atapiReadBlockSize buffer dev k buf).2⟩ blknr
          buffer _ := got_of_over hover rfl rfl hres
      split
      case isTrue hmore =>
        obtain ⟨m, hm⟩ := ih (blkcnt - 1) (by omega) (blknr + 1) (n + 1)
          (buffer + atapiReadBlockSize) _ _ hmore
        exact ⟨m + 1, reached_succ hgot hover.frame hm⟩
      case isFalse =>
        have hend : Reached (blknr + 1) (n + 1) (buffer + atapiReadBlockSize)
            (issueAutoreq atapiReadBlockSize buffer dev k buf).1.2
            ⟨n + 1, (issueAutoreq atapiReadBlockSize buffer dev k buf).1.2, []⟩ 0 :=
          ⟨rfl, fun i hi => absurd hi (Nat.not_lt_zero i), fun i e _ hi => absurd hi (by simp),
            fun _ _ => rfl⟩
        exact ⟨1, reached_succ hgot hover.frame hend⟩

/-- A drive is not asked more than 115 times for a block. -/
theorem length_attempts_le (blknr blkcnt n buffer k : ℕ) (buf : ℕ → Byte) :
  ∀ e ∈ (readLoop dev blknr blkcnt n buffer k buf).log, e.attempts.length ≤ 115
  := by
  have hall : ∀ buflen buffer k buf, (issueAutoreq buflen buffer dev k buf).2.length ≤ 115 := by
    intro buflen buffer k buf
    exact Retry.length_run_le _ _
  induction blkcnt using Nat.strong_induction_on generalizing blknr n buffer k buf with
  | _ blkcnt ih =>
    rw [readLoop]
    simp only
    split
    case isTrue =>
      intro e he
      obtain rfl := List.mem_singleton.mp he
      apply hall
    case isFalse =>
      split
      case isTrue hmore =>
        intro e he
        obtain rfl | he := List.mem_cons.mp he
        · apply hall
        · exact ih _ (by rw [nextCnt_eq_min] at *; omega) _ _ _ _ _ e he
      case isFalse =>
        intro e he
        obtain rfl := List.mem_singleton.mp he
        apply hall

end Blocks

/-! ### What is reported -/

section Read

variable (dev : ℕ → Attempt) (blknr blkcnt buffer : ℕ) (buf : ℕ → Byte)

/-- Every block that is reported was transferred completely by the last attempt for it, which was
for this block; and there are only finitely many attempts. -/
structure Right (blknr buffer : ℕ) (r : Run) : Prop where
  block : ∀ i < r.n, ∃ e a, r.log[i]? = some e ∧ e.attempts.getLast? = some a
    ∧ lba e.ccb = blknr + i ∧ a.command.Complete atapiReadBlockSize
    ∧ read r.buf (buffer + i * atapiReadBlockSize) atapiReadBlockSize
      = read a.command.data 0 atapiReadBlockSize
  finite : ∀ e ∈ r.log, e.attempts.length ≤ 115

/-- Every attempt that counts as done is for a block number of 32 bits, and has transferred the
block. -/
def Honest (blknr : ℕ) (r : Run) : Prop :=
  ∀ i e, r.log[i]? = some e → ∀ a ∈ e.attempts, a.Done atapiReadBlockSize →
    blknr + i < 2 ^ 32 ∧ a.command.Complete atapiReadBlockSize

theorem n_atapiRead_zero :
  (atapiRead dev blknr 0 buffer buf).n = 0
  := by
  have hzero : nextCnt 0 = 0 := rfl
  rw [atapiRead, readLoop]
  simp only [hzero]
  split
  case isTrue => rfl
  case isFalse => rfl

/-- A block that is reported was transferred, so its last attempt was not only said to be done. -/
theorem honest_of_right (hcnt : 0 < blkcnt)
    (h : Right blknr buffer (atapiRead dev blknr blkcnt buffer buf)) :
  Honest blknr (atapiRead dev blknr blkcnt buffer buf)
  := by
  obtain ⟨m, hm⟩ := reached_readLoop dev blknr 0 buffer 0 buf hcnt
  have hblock := h.block
  rw [atapiRead] at *
  generalize readLoop dev blknr blkcnt 0 buffer 0 buf = r at *
  have hn : r.n = m := by
    rw [hm.n_eq, Nat.zero_add]
  intro i e he a ha hdone
  have hi : i < m := by
    by_contra hle
    exact hm.rest i e (not_lt.mp hle) he a ha hdone
  obtain ⟨e', he', hgot⟩ := hm.got i hi
  obtain ⟨e'', last', hlog, hgetLast, hlba, hcomplete, -⟩ := hblock i (by rwa [hn])
  rw [he] at he' hlog
  cases he'
  cases hlog
  obtain ⟨init, last, hr, hinit, -, -⟩ := hgot.last
  rw [hr, List.getLast?_concat] at hgetLast
  cases hgetLast
  have heq : a = last' := by
    rw [hr, List.mem_append, List.mem_singleton] at ha
    exact ha.resolve_left fun hmem => hinit a hmem hdone
  rw [hgot.ccb, lba_readCcb] at hlba
  rw [heq]
  exact ⟨by omega, hcomplete⟩

theorem right_of_honest (hcnt : 0 < blkcnt)
    (h : Honest blknr (atapiRead dev blknr blkcnt buffer buf)) :
  Right blknr buffer (atapiRead dev blknr blkcnt buffer buf)
  := by
  refine ⟨?_, length_attempts_le dev blknr blkcnt 0 buffer 0 buf⟩
  obtain ⟨m, hm⟩ := reached_readLoop dev blknr 0 buffer 0 buf hcnt
  rw [atapiRead] at *
  generalize readLoop dev blknr blkcnt 0 buffer 0 buf = r at *
  have hn : r.n = m := by
    rw [hm.n_eq, Nat.zero_add]
  intro i hi
  obtain ⟨e, he, hgot⟩ := hm.got i (by rwa [← hn])
  obtain ⟨init, last, hr, hinit, hdone, hdata⟩ := hgot.last
  have hlast : last ∈ e.attempts := by
    rw [hr]
    exact List.mem_append_right _ (List.mem_singleton_self last)
  obtain ⟨hlt, hcomplete⟩ := h i e he last hlast hdone
  refine ⟨e, last, he, ?_, ?_, hcomplete, hdata hcomplete⟩
  · rw [hr, List.getLast?_concat]
  · rw [hgot.ccb, lba_readCcb]
    exact Nat.mod_eq_of_lt hlt

/-- What is reported was transferred exactly if no attempt counts as done that has not transferred
the block that was asked for. -/
theorem right_iff :
  Right blknr buffer (atapiRead dev blknr blkcnt buffer buf)
    ↔ blkcnt = 0 ∨ Honest blknr (atapiRead dev blknr blkcnt buffer buf)
  := by
  obtain rfl | hcnt := Nat.eq_zero_or_pos blkcnt
  · have hn := n_atapiRead_zero dev blknr buffer buf
    refine iff_of_true ⟨?_, length_attempts_le dev blknr 0 0 buffer 0 buf⟩ (Or.inl rfl)
    intro i hi
    rw [hn] at hi
    exact absurd hi (Nat.not_lt_zero i)
  · rw [or_iff_right (Nat.pos_iff_ne_zero.mp hcnt)]
    exact ⟨honest_of_right dev blknr blkcnt buffer buf hcnt,
      right_of_honest dev blknr blkcnt buffer buf hcnt⟩

end Read

/-- A drive that has a medium error, and does not take the request sense. -/
def broken : Attempt where
  command :=
    { status := fun w _ => if w = 0 then 0x40 else if w = 1 then 0x48 else 0x41
      error := 0x30
      sectCnt := 0
      cylLow := 0
      cylHigh := 0
      data := fun _ => 0 }
  sense :=
    { status := fun _ _ => 0x41
      error := 0x30
      sectCnt := 0
      cylLow := 0
      cylHigh := 0
      data := fun _ => 0 }

theorem waitMask_of_err {b : Behaviour} {w : ℕ} {mask res : Byte}
    (h : b.status w 0 &&& mask = res ∨ b.status w 0 &&& statErr = statErr) :
  waitMask b w mask res = b.status w 0
  := by
  have hdelay : 10 * atapiTimeOut = 69999 + 1 := rfl
  rw [waitMask, hdelay, waitMaskLoop]
  split
  case isTrue hres => rw [if_pos (h.resolve_left hres)]
  case isFalse => rfl

/-- The medium error counts as done, since the request sense gives no sense key. -/
theorem done_broken :
  broken.Done atapiReadBlockSize
  := by
  have hcommand : broken.command.Accepts := by
    constructor
    · rw [waitMask_of_err (Or.inl (by decide))]
      decide
    · rw [waitMask_of_err (Or.inl (by decide))]
      decide
  have hsent : broken.command.sent atapiReadBlockSize = 0x41 :=
    waitMask_of_err (Or.inr (by decide))
  have hsense : ¬ broken.sense.Accepts := by
    intro h
    have hone := h.2
    rw [waitMask_of_err (Or.inr (by decide))] at hone
    exact absurd hone (by decide)
  have hzero : senseData broken.sense = fun _ => 0 := by
    rw [senseData, issue_of_not_accepts _ _ _ _ hsense]
  refine Or.inr ⟨Or.inl ⟨hcommand, ?_, ?_⟩, Or.inr (Or.inl ?_)⟩
  · rw [hsent]
    decide
  · rw [hsent]
    decide
  · rw [hzero]
    rfl

theorem issueAutoreq_of_done {buflen buffer k : ℕ} {dev : ℕ → Attempt} {buf : ℕ → Byte}
    (h : (dev k).Done buflen) :
  issueAutoreq buflen buffer dev k buf
    = ((0, (issue (dev k).command buflen buffer buf).2), [dev k])
  := by
  obtain ⟨-, hstop⟩ | ⟨hnot, -⟩ := attempt_cases buflen buffer
    ⟨atapiUnitAttn, atapiDriveNotReady, 0, buf⟩ (dev k)
  · exact Retry.run_of_stop hstop
  · exact absurd h hnot

/-- One block is read from it. -/
theorem not_right_broken :
  ¬ Right 0 0 (atapiRead (fun _ => broken) 0 1 0 fun _ => 0)
  := by
  intro hright
  have hhonest := honest_of_right (fun _ => broken) 0 1 0 (fun _ => 0) (by decide) hright
  have hlog : (atapiRead (fun _ => broken) 0 1 0 fun _ => 0).log[0]?
      = some ⟨readCcb 0 1, [broken]⟩ := by
    have hone : nextCnt 1 = 1 := rfl
    have hauto : issueAutoreq atapiReadBlockSize 0 (fun _ => broken) 0 (fun _ => 0) = _ :=
      issueAutoreq_of_done done_broken
    rw [atapiRead, readLoop]
    simp only [hone, Nat.one_mul]
    rw [hauto]
    rfl
  have hcomplete := (hhonest 0 _ hlog broken (List.mem_singleton_self _) done_broken).2
  exact absurd hcomplete.toHost (by decide)

end Atapi
