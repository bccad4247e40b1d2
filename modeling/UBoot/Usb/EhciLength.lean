import UBoot.Usb.Ehci

/-!
# The length of an EHCI transfer

The last part of `ehci_submit_async`.  The controller executes the qTDs in their order, until one
of them fails or ends with a short packet, as the alternate pointer of every qTD terminates the
queue.  The length of the transfer is computed from the whole length and from what is left of the
qTD that the queue head holds in the end.

A short packet in a data qTD behind which there are others makes this length wrong: their bytes
count as transferred, too.
-/

namespace Ehci

/-! ### The end of a transfer -/

/-- `QT_TOKEN_GET_STATUS`. -/
def tokenGetStatus (x : ℕ) : ℕ := x >>> 0 &&& 0xff

def statusHalted : ℕ := 0x40
def statusDatbuferr : ℕ := 0x20
def statusBabbledet : ℕ := 0x10
def statusSplitxstate : ℕ := 0x02
def statusPerr : ℕ := 0x01

/-- `USB_ST_STALLED`. -/
def stStalled : ℕ := 0x2

/-- `USB_ST_BUF_ERR`. -/
def stBufErr : ℕ := 0x4

/-- `USB_ST_BABBLE_DET`. -/
def stBabbleDet : ℕ := 0x8

/-- `USB_ST_CRC_ERR`. -/
def stCrcErr : ℕ := 0x20

/-- `USB_ST_NOT_PROC`. -/
def stNotProc : ℕ := 0x80000000

/-- The bits of the status that are not masked. -/
def unmasked (token : ℕ) : ℕ :=
  tokenGetStatus token &&& (0xff - (statusSplitxstate ||| statusPerr))

/-- The status of the device for the token of a qTD that is not active. -/
def devStatus (token : ℕ) : ℕ :=
  if unmasked token = 0 then 0
  else if unmasked token = statusHalted then stStalled
  else if unmasked token = statusActive ||| statusDatbuferr ∨ unmasked token = statusDatbuferr then
    stBufErr
  else if unmasked token = statusHalted ||| statusBabbledet ∨ unmasked token = statusBabbledet then
    stBabbleDet
  else if tokenGetStatus token &&& statusHalted ≠ 0 then stCrcErr ||| stStalled
  else stCrcErr

/-- `usb_settoggle`. -/
def Pipe.settoggle (p : Pipe) (bit : ℕ) : ℕ :=
  (p.toggles &&& ((2 ^ 32 - 1) ^^^ (1 <<< p.endpoint))) ||| bit <<< p.endpoint

/-- What `ehci_submit_async` returns, and what it leaves in the device. -/
structure Result where
  ret : ℤ
  status : ℕ
  actLen : ℤ
  toggles : ℕ

/-- The token in the queue head is read when the transfer is over. -/
def readOverlay (p : Pipe) (length status token : ℕ) : Result :=
  let r : Result :=
    if tokenGetStatus token &&& statusActive = 0 then
      { ret := 0
        status := devStatus token
        actLen := length - tokenGetTotalbytes token
        toggles := if unmasked token = 0 then p.settoggle (tokenGetDt token) else p.toggles }
    else
      { ret := 0
        status := status
        actLen := 0
        toggles := p.toggles }
  { r with ret := if r.status ≠ stNotProc then 0 else -1 }

/-! ### The queue -/

/-- A qTD is completed, and the queue goes on with the next one. -/
def Completes (token : ℕ) : Prop :=
  tokenGetStatus token &&& statusActive = 0 ∧ unmasked token = 0 ∧ tokenGetTotalbytes token = 0

/-- A qTD ends with a short packet. -/
def Short (token : ℕ) : Prop :=
  tokenGetStatus token &&& statusActive = 0 ∧ unmasked token = 0 ∧ tokenGetTotalbytes token ≠ 0

/-- A qTD ends with an error or a halt. -/
def Fails (token : ℕ) : Prop :=
  tokenGetStatus token &&& statusActive = 0 ∧ unmasked token ≠ 0

instance decidableCompletes (token : ℕ) : Decidable (Completes token) :=
  inferInstanceAs (Decidable (_ ∧ _))

/-- The qTDs that are executed, with the tokens that the controller leaves in the queue head for
them; `ctl i` is the one for qTD `i`.  If that is still active, the transfer is given up there. -/
def executed (ctl : ℕ → ℕ) : ℕ → List QTD → List (QTD × ℕ)
  | _, [] => []
  | i, td :: tds => (td, ctl i) :: if Completes (ctl i) then executed ctl (i + 1) tds else []

/-- What the queue head holds in the end. -/
def overlay (run : List (QTD × ℕ)) : ℕ := (run.getLast?.map Prod.snd).getD 0

/-- The data qTDs of a transfer. -/
def dataPart (p : Pipe) (buffer : Word) (length : ℕ) (req : Option Word) : Option (List QTD) :=
  if length > 0 ∨ req.isNone then
    dataTds p (if req.isNone then 1 else 0) buffer length (initialToggle p req)
  else some []

/-- `ehci_submit_async`, with the status that `usb_control_msg` and `usb_bulk_msg` set before.  The
asynchronous schedule is `started` and `stopped`, or the handshake for that fails. -/
def ehciSubmitAsync (p : Pipe) (buffer : Word) (length : ℕ) (req : Option Word) (actLen : ℤ)
    (started stopped : Bool) (ctl : ℕ → ℕ) : Result :=
  (submitAsync p buffer length req).elim ⟨-1, stNotProc, actLen, p.toggles⟩ fun tds =>
    if started && stopped then readOverlay p length stNotProc (overlay (executed ctl 0 tds))
    else ⟨-1, stNotProc, actLen, p.toggles⟩

theorem submitAsync_eq {p : Pipe} {buffer : Word} {length : ℕ} {req : Option Word}
    {setup data : List QTD} (hsetup : setupTds req = some setup)
    (hdata : dataPart p buffer length req = some data) :
  submitAsync p buffer length req = some (setup ++ (data ++ ackTds p req))
  := by
  have hbind : submitAsync p buffer length req = (setupTds req).bind fun setup =>
      (dataPart p buffer length req).bind fun data => some (setup ++ data ++ ackTds p req) := by
    unfold submitAsync dataPart
    split <;> rfl
  rw [hbind, hsetup, Option.bind_some, hdata, Option.bind_some, List.append_assoc]

/-- The bytes that were transferred by the qTDs behind the setup request. -/
def transferred (setup : List QTD) (run : List (QTD × ℕ)) : ℕ :=
  ((run.drop setup.length).map fun e => e.1.bytes - tokenGetTotalbytes e.2).sum

/-- What the controller leaves: not more is left of a qTD than its bytes, and a setup request is
sent as a whole or not at all. -/
structure Plausible (ctl : ℕ → ℕ) (setup rest : List QTD) : Prop where
  whole : ∀ i < setup.length, ¬ Short (ctl i)
  left : ∀ i (h : i < rest.length), tokenGetTotalbytes (ctl (setup.length + i)) ≤ rest[i].bytes

/-- With the status 0, the length is what was transferred, and no qTD failed. -/
def Reported (r : Result) (setup : List QTD) (run : List (QTD × ℕ)) : Prop :=
  r.status = 0 → r.actLen = transferred setup run ∧ ∀ e ∈ run, ¬ Fails e.2

/-- The queue stops with a short packet in a data qTD behind which there are others. -/
def ShortInside (ctl : ℕ → ℕ) (setup data : List QTD) : Prop :=
  ∃ i, i + 1 < data.length ∧ (∀ j < setup.length + i, Completes (ctl j))
    ∧ Short (ctl (setup.length + i))

/-! ### The statuses -/

theorem devStatus_eq_zero {token : ℕ} :
  devStatus token = 0 ↔ unmasked token = 0
  := by
  unfold devStatus
  constructor
  · intro h
    by_contra hne
    rw [if_neg hne] at h
    revert h
    split_ifs <;> decide
  · intro h
    exact if_pos h

/-- The status is 0 if the last qTD was completed or ended with a short packet. -/
theorem readOverlay_status {p : Pipe} {length token : ℕ} :
  (readOverlay p length stNotProc token).status = 0 ↔ Completes token ∨ Short token
  := by
  have hor : Completes token ∨ Short token ↔
      tokenGetStatus token &&& statusActive = 0 ∧ unmasked token = 0 := by
    unfold Completes Short
    tauto
  rw [hor]
  unfold readOverlay
  by_cases hactive : tokenGetStatus token &&& statusActive = 0
  case pos =>
    rw [if_pos hactive, and_iff_right hactive]
    exact devStatus_eq_zero
  case neg =>
    rw [if_neg hactive]
    exact iff_of_false (by decide : stNotProc ≠ 0) fun h => hactive h.1

theorem readOverlay_actLen {p : Pipe} {length status token : ℕ}
    (hactive : tokenGetStatus token &&& statusActive = 0) :
  (readOverlay p length status token).actLen = length - tokenGetTotalbytes token
  := by
  unfold readOverlay
  rw [if_pos hactive]

theorem Completes.not_fails {token : ℕ} (h : Completes token) :
  ¬ Fails token
  := fun hfails => hfails.2 h.2.1

theorem Short.not_fails {token : ℕ} (h : Short token) :
  ¬ Fails token
  := fun hfails => hfails.2 h.2.1

theorem Short.not_completes {token : ℕ} (h : Short token) :
  ¬ Completes token
  := fun hcompletes => h.2.2 hcompletes.2.2

/-! ### What is executed -/

theorem executed_append_of_complete (ctl : ℕ → ℕ) {i : ℕ} {a b : List QTD}
    (h : ∀ j < a.length, Completes (ctl (i + j))) :
  (executed ctl i a).length = a.length
    ∧ executed ctl i (a ++ b) = executed ctl i a ++ executed ctl (i + a.length) b
    ∧ ∀ e ∈ executed ctl i a, ¬ Fails e.2
  := by
  induction a generalizing i with
  | nil => exact ⟨rfl, rfl, fun e he => absurd he List.not_mem_nil⟩
  | cons td a ih =>
      have hfirst : Completes (ctl i) := h 0 (Nat.succ_pos _)
      have hrest : ∀ j < a.length, Completes (ctl (i + 1 + j)) := by
        intro j hj
        have hj' := h (j + 1) (Nat.succ_lt_succ hj)
        rwa [Nat.add_right_comm, ← Nat.add_assoc] at *
      obtain ⟨hlength, happend, hfails⟩ := ih hrest
      rw [List.cons_append, executed, executed, if_pos hfirst, if_pos hfirst, happend,
        List.length_cons, List.length_cons, hlength, Nat.add_right_comm, Nat.add_assoc]
      refine ⟨rfl, rfl, ?_⟩
      intro e he
      obtain rfl | he := List.mem_cons.mp he
      · exact hfirst.not_fails
      · exact hfails e he

/-- The queue stops at some qTD: the ones before it were completed, and it was not, or it is the
last one. -/
theorem exists_stop (ctl : ℕ → ℕ) (i : ℕ) {tds : List QTD} (hne : tds ≠ [])
    (hleft : ∀ j (h : j < tds.length), tokenGetTotalbytes (ctl (i + j)) ≤ tds[j].bytes) :
  ∃ k < tds.length, (∀ j < k, Completes (ctl (i + j)))
    ∧ (¬ Completes (ctl (i + k)) ∨ k + 1 = tds.length)
    ∧ (executed ctl i tds).getLast?.map Prod.snd = some (ctl (i + k))
    ∧ (∀ e ∈ executed ctl i tds, Completes e.2 ∨ e.2 = ctl (i + k))
    ∧ ((executed ctl i tds).map fun e => e.1.bytes - tokenGetTotalbytes e.2).sum
      + tokenGetTotalbytes (ctl (i + k)) = ((tds.take (k + 1)).map QTD.bytes).sum
  := by
  induction tds generalizing i with
  | nil => exact absurd rfl hne
  | cons td tds ih =>
      have hfirst : tokenGetTotalbytes (ctl i) ≤ td.bytes := hleft 0 (Nat.succ_pos _)
      by_cases hstop : ¬ Completes (ctl i) ∨ tds = []
      case pos =>
        have hrun : executed ctl i (td :: tds) = [(td, ctl i)] := by
          rw [executed]
          obtain hstop | rfl := hstop
          · rw [if_neg hstop]
          · split <;> rfl
        refine ⟨0, Nat.succ_pos _, fun j hj => absurd hj (Nat.not_lt_zero j), ?_, ?_, ?_, ?_⟩
        · apply Or.imp_right _ hstop
          rintro rfl
          rfl
        · rw [hrun]
          rfl
        · rw [hrun]
          intro e he
          obtain rfl := List.mem_singleton.mp he
          exact Or.inr rfl
        · rw [hrun]
          change td.bytes - tokenGetTotalbytes (ctl i) + 0 + tokenGetTotalbytes (ctl i) = _ + 0
          omega
      case neg =>
        obtain ⟨hcompletes, hne'⟩ := not_or.mp hstop
        rw [not_not] at hcompletes
        have hleft' : ∀ j (h : j < tds.length),
            tokenGetTotalbytes (ctl (i + 1 + j)) ≤ tds[j].bytes := by
          intro j hj
          have hj' := hleft (j + 1) (Nat.succ_lt_succ hj)
          rwa [Nat.add_right_comm i 1 j, Nat.add_assoc i j 1]
        obtain ⟨k, hk, hbefore, hend, hlast, hmem, hsum⟩ := ih (i + 1) hne' hleft'
        have hindex : ∀ j, i + 1 + j = i + (j + 1) := fun j => by omega
        have hrun : executed ctl i (td :: tds) = (td, ctl i) :: executed ctl (i + 1) tds := by
          rw [executed, if_pos hcompletes]
        rw [hindex] at hend hlast hsum
        refine ⟨k + 1, Nat.succ_lt_succ hk, ?_, ?_, ?_, ?_, ?_⟩
        · intro j hj
          cases j with
          | zero => exact hcompletes
          | succ j =>
              have hj' := hbefore j (Nat.lt_of_succ_lt_succ hj)
              rwa [hindex] at hj'
        · exact Or.imp_right (congrArg (· + 1)) hend
        · have hne'' : executed ctl (i + 1) tds ≠ [] := by
            intro hnil
            rw [hnil] at hlast
            cases hlast
          rw [hrun, List.getLast?_cons_of_ne_nil hne'', hlast]
        · rw [hrun]
          intro e he
          obtain rfl | he := List.mem_cons.mp he
          · exact Or.inl hcompletes
          · rw [← hindex]
            exact hmem e he
        · rw [hrun, List.map_cons, List.sum_cons, List.take_succ_cons, List.map_cons,
            List.sum_cons, ← hsum, hcompletes.2.2]
          change td.bytes - 0 + _ + _ = _
          omega

/-! ### The data qTDs -/

/-- The data qTDs are for all bytes, and only a transfer of no bytes has a qTD without any. -/
theorem dataTds_bytes {p : Pipe} {ioc : ℕ} {bufPtr : Word} {left toggle : ℕ} {data : List QTD}
    (h : dataTds p ioc bufPtr left toggle = some data) :
  (data.map QTD.bytes).sum = left ∧ data ≠ [] ∧ (0 < left → ∀ td ∈ data, 0 < td.bytes)
    ∧ ∀ td ∈ data.tail, 0 < td.bytes
  := by
  induction left using Nat.strong_induction_on generalizing bufPtr toggle data with
  | _ left ih =>
      have hcap := capacity_eq bufPtr
      have hlt : xfrBytes bufPtr left < 2 ^ 15 := by
        rw [xfrBytes]
        omega
      rw [dataTds] at h
      obtain ⟨pages, -, h⟩ := Option.bind_eq_some_iff.mp h
      generalize htd : QTD.mk (token toggle (xfrBytes bufPtr left) ioc
        (if p.pipein then pidIn else pidOut)) pages = td at h
      have hbytes : td.bytes = xfrBytes bufPtr left := by
        rw [← htd]
        exact tokenGetTotalbytes_token _ _ _ hlt
      have hpos : 0 < left → 0 < xfrBytes bufPtr left := by
        intro hpos
        rw [xfrBytes]
        omega
      dsimp only at h
      split at h
      case isTrue hmore =>
        obtain ⟨rest, hrest, rfl⟩ := Option.map_eq_some_iff.mp h
        have hxfr : xfrBytes bufPtr left ≤ left := Nat.min_le_right ..
        obtain ⟨hsum, -, hall, -⟩ := ih (left - xfrBytes bufPtr left) (by omega) hrest
        rw [List.map_cons, List.sum_cons, hsum, hbytes]
        refine ⟨by omega, List.cons_ne_nil _ _, ?_, hall hmore⟩
        intro hleft
        rw [List.forall_mem_cons, hbytes]
        exact ⟨hpos hleft, hall hmore⟩
      case isFalse hlast =>
        obtain rfl := Option.some.inj h
        have hxfr : xfrBytes bufPtr left = left := by
          rw [xfrBytes] at hlast ⊢
          omega
        rw [List.map_singleton, List.sum_singleton, hbytes, hxfr]
        refine ⟨rfl, List.cons_ne_nil _ _, ?_, ?_⟩
        · intro hleft td' htd'
          rw [List.mem_singleton.mp htd', hbytes, hxfr]
          exact hleft
        · intro td' htd'
          cases htd'

/-- The part of a transfer behind the setup request: the qTDs for the data, and an acknowledgement
that has no bytes. -/
theorem dataPart_bytes {p : Pipe} {buffer : Word} {length : ℕ} {req : Option Word}
    {data : List QTD} (h : dataPart p buffer length req = some data) :
  data ++ ackTds p req ≠ [] ∧ (data.map QTD.bytes).sum = length
    ∧ (∀ td ∈ data.tail, 0 < td.bytes) ∧ ∀ td ∈ ackTds p req, td.bytes = 0
  := by
  have hack : ∀ td ∈ ackTds p req, td.bytes = 0 := by
    intro td htd
    cases req with
    | none => cases htd
    | some r =>
        rw [List.mem_singleton.mp htd]
        exact tokenGetTotalbytes_token _ _ _ (by decide)
  unfold dataPart at h
  split at h
  case isTrue =>
    obtain ⟨hsum, hne, -, hpos⟩ := dataTds_bytes h
    exact ⟨fun hnil => hne (List.append_eq_nil_iff.mp hnil).1, hsum, hpos, hack⟩
  case isFalse hnone =>
    obtain rfl := Option.some.inj h
    cases req with
    | none => exact absurd (Or.inr rfl) hnone
    | some r =>
        refine ⟨List.cons_ne_nil _ _, ?_, ?_, hack⟩
        · change 0 = length
          omega
        · intro td htd
          cases htd

/-- No bytes are left behind a data qTD exactly if it is the last one. -/
theorem sum_take_eq_iff {data ack : List QTD} (hpos : ∀ td ∈ data.tail, 0 < td.bytes)
    (hack : ∀ td ∈ ack, td.bytes = 0) (k : ℕ) :
  (((data ++ ack).take (k + 1)).map QTD.bytes).sum = (data.map QTD.bytes).sum
    ↔ ¬ k + 1 < data.length
  := by
  have hzero : ∀ ℓ : List QTD, (∀ td ∈ ℓ, td ∈ ack) → (ℓ.map QTD.bytes).sum = 0 := by
    intro ℓ hℓ
    apply List.sum_eq_zero
    intro n hn
    obtain ⟨td, htd, rfl⟩ := List.mem_map.mp hn
    exact hack td (hℓ td htd)
  rw [List.take_append, List.map_append, List.sum_append,
    hzero _ (fun td htd => List.mem_of_mem_take htd), Nat.add_zero]
  have hsplit : (data.map QTD.bytes).sum = ((data.take (k + 1)).map QTD.bytes).sum
      + ((data.drop (k + 1)).map QTD.bytes).sum := by
    rw [← List.sum_append, ← List.map_append, List.take_append_drop]
  by_cases hlt : k + 1 < data.length
  case pos =>
    apply iff_of_false _ (not_not.mpr hlt)
    have hmem : data[k + 1] ∈ data.tail := by
      cases data with
      | nil => cases hlt
      | cons td data => exact List.getElem_mem (Nat.lt_of_succ_lt_succ hlt)
    have hbytes := hpos _ hmem
    rw [List.drop_eq_getElem_cons hlt, List.map_cons, List.sum_cons] at hsplit
    omega
  case neg =>
    apply iff_of_true _ hlt
    rw [List.take_of_length_le (Nat.le_of_not_lt hlt)]

/-! ### The reported length -/

section Reported

variable {ctl : ℕ → ℕ} {setup data ack : List QTD} {k : ℕ}

/-- The queue stops with a short packet at one qTD only. -/
theorem shortInside_iff (hsetup : ∀ j < setup.length, Completes (ctl j))
    (hbefore : ∀ j < k, Completes (ctl (setup.length + j)))
    (hend : ¬ Completes (ctl (setup.length + k)) ∨ k + 1 = (data ++ ack).length) :
  ShortInside ctl setup data ↔ k + 1 < data.length ∧ Short (ctl (setup.length + k))
  := by
  constructor
  · rintro ⟨i, hi, hall, hshort⟩
    obtain hlt | rfl | hgt := Nat.lt_trichotomy i k
    · exact absurd (hbefore i hlt) hshort.not_completes
    · exact ⟨hi, hshort⟩
    · obtain hend | hend := hend
      · exact absurd (hall _ (by omega)) hend
      · rw [List.length_append] at hend
        omega
  · rintro ⟨hk, hshort⟩
    refine ⟨k, hk, ?_, hshort⟩
    intro j hj
    by_cases hlt : j < setup.length
    case pos => exact hsetup j hlt
    case neg =>
      have hj' := hbefore (j - setup.length) (by omega)
      rwa [Nat.add_sub_cancel' (Nat.le_of_not_lt hlt)] at hj'

/-- The setup request was sent. -/
theorem readOverlay_reported (p : Pipe) {length : ℕ} (hne : data ++ ack ≠ [])
    (hsum : (data.map QTD.bytes).sum = length) (hpos : ∀ td ∈ data.tail, 0 < td.bytes)
    (hack : ∀ td ∈ ack, td.bytes = 0) (hctl : Plausible ctl setup (data ++ ack))
    (hsetup : ∀ j < setup.length, Completes (ctl j)) :
  Reported
      (readOverlay p length stNotProc (overlay (executed ctl 0 (setup ++ (data ++ ack)))))
      setup (executed ctl 0 (setup ++ (data ++ ack)))
    ↔ ¬ ShortInside ctl setup data
  := by
  have hsetup' : ∀ j < setup.length, Completes (ctl (0 + j)) := by
    intro j hj
    rw [Nat.zero_add]
    exact hsetup j hj
  obtain ⟨hlength, hrun, hfails⟩ := executed_append_of_complete ctl (b := data ++ ack) hsetup'
  rw [Nat.zero_add] at hrun
  obtain ⟨k, hk, hbefore, hend, hlast, hmem, hmoved⟩ :=
    exists_stop ctl setup.length hne hctl.left
  rw [shortInside_iff hsetup hbefore hend, hrun]
  have hoverlay : overlay (executed ctl 0 setup ++ executed ctl setup.length (data ++ ack)) =
      ctl (setup.length + k) := by
    obtain ⟨e, he, htoken⟩ := Option.map_eq_some_iff.mp hlast
    unfold overlay
    rw [List.getLast?_append, he, ← htoken]
    rfl
  have htransferred : transferred setup
      (executed ctl 0 setup ++ executed ctl setup.length (data ++ ack)) =
      ((executed ctl setup.length (data ++ ack)).map
        fun e => e.1.bytes - tokenGetTotalbytes e.2).sum := by
    unfold transferred
    rw [List.drop_left' hlength]
  unfold Reported
  rw [hoverlay, htransferred, readOverlay_status]
  generalize ctl (setup.length + k) = token at *
  have hactLen : Completes token ∨ Short token →
      ((readOverlay p length stNotProc token).actLen =
        (((executed ctl setup.length (data ++ ack)).map
          fun e => e.1.bytes - tokenGetTotalbytes e.2).sum : ℕ) ↔ ¬ k + 1 < data.length) := by
    intro hor
    have hactive : tokenGetStatus token &&& statusActive = 0 := Or.elim hor And.left And.left
    rw [readOverlay_actLen hactive, ← sum_take_eq_iff hpos hack k, hsum]
    omega
  have hnofail : Completes token ∨ Short token →
      ∀ e ∈ executed ctl 0 setup ++ executed ctl setup.length (data ++ ack), ¬ Fails e.2 := by
    intro hor e he
    obtain he | he := List.mem_append.mp he
    · exact hfails e he
    · obtain h | h := hmem e he
      · exact h.not_fails
      · rw [h]
        exact Or.elim hor Completes.not_fails Short.not_fails
  constructor
  · rintro h ⟨hlt, hshort⟩
    exact (hactLen (Or.inr hshort)).mp (h (Or.inr hshort)).1 hlt
  · intro hnot hor
    refine ⟨(hactLen hor).mpr ?_, hnofail hor⟩
    intro hlt
    obtain hcompletes | hshort := hor
    · obtain hend | hend := hend
      · exact hend hcompletes
      · rw [List.length_append] at hend
        omega
    · exact hnot ⟨hlt, hshort⟩

end Reported

theorem setupTds_cases {req : Option Word} {setup : List QTD} (h : setupTds req = some setup) :
  setup = [] ∨ ∃ td, setup = [td]
  := by
  cases req with
  | none =>
      obtain rfl := Option.some.inj h
      exact Or.inl rfl
  | some r =>
      obtain ⟨pages, -, rfl⟩ := Option.map_eq_some_iff.mp h
      exact Or.inr ⟨_, rfl⟩

/-- For every transfer and all that the controller may do, the length that is reported with the
status 0 is the number of bytes that were transferred, and no qTD failed, if and only if the queue
does not stop with a short packet in a data qTD behind which there are others. -/
theorem ehciSubmitAsync_reported_iff (p : Pipe) (buffer : Word) (length : ℕ) (req : Option Word)
    (actLen : ℤ) (started stopped : Bool) (ctl : ℕ → ℕ) {setup data : List QTD}
    (hsetup : setupTds req = some setup) (hdata : dataPart p buffer length req = some data)
    (hctl : Plausible ctl setup (data ++ ackTds p req)) :
  Reported (ehciSubmitAsync p buffer length req actLen started stopped ctl) setup
      (executed ctl 0 (setup ++ (data ++ ackTds p req)))
    ↔ ¬ ((started && stopped) = true ∧ ShortInside ctl setup data)
  := by
  obtain ⟨hne, hsum, hpos, hack⟩ := dataPart_bytes hdata
  unfold ehciSubmitAsync
  rw [submitAsync_eq hsetup hdata, Option.elim_some]
  by_cases hhandshake : (started && stopped) = true
  case neg =>
    have hnotproc : stNotProc ≠ 0 := by decide
    rw [if_neg hhandshake]
    exact iff_of_true (fun h => absurd h hnotproc) fun h => hhandshake h.1
  case pos =>
    rw [if_pos hhandshake, and_iff_right hhandshake]
    by_cases hsent : ∀ j < setup.length, Completes (ctl j)
    case pos => exact readOverlay_reported p hne hsum hpos hack hctl hsent
    case neg =>
      obtain rfl | ⟨td, rfl⟩ := setupTds_cases hsetup
      · exact absurd (fun j hj => absurd hj (Nat.not_lt_zero j)) hsent
      · have hfirst : ¬ Completes (ctl 0) := by
          intro hfirst
          apply hsent
          intro j hj
          obtain rfl := Nat.lt_one_iff.mp hj
          exact hfirst
        have hrun : executed ctl 0 ([td] ++ (data ++ ackTds p req)) = [(td, ctl 0)] := by
          rw [List.singleton_append, executed, if_neg hfirst]
        rw [hrun]
        apply iff_of_true
        · intro hstatus
          obtain h | h := readOverlay_status.mp hstatus
          · exact absurd h hfirst
          · exact absurd h (hctl.whole 0 Nat.zero_lt_one)
        · rintro ⟨i, -, hall, -⟩
          exact hfirst (hall 0 (Nat.add_pos_left Nat.zero_lt_one i))

/-- A bulk pipe for 512 bytes a packet. -/
def bulkPipe : Pipe := ⟨0, 1, 512, true⟩

/-- The qTDs for reading 40000 bytes. -/
def bulkTds : List QTD :=
  [⟨token 0 20480 1 pidIn, [0x1000, 0x2000, 0x3000, 0x4000, 0x5000]⟩,
    ⟨token 0 19520 1 pidIn, [0x6000, 0x7000, 0x8000, 0x9000, 0xA000]⟩]

theorem dataPart_bulk :
  dataPart bulkPipe 0x1000 40000 none = some bulkTds
  := by
  have hfirst : tdBuffer 0x1000 (xfrBytes 0x1000 40000) =
      some [0x1000, 0x2000, 0x3000, 0x4000, 0x5000] := by decide
  have hsecond : tdBuffer 0x6000 (xfrBytes 0x6000 19520) =
      some [0x6000, 0x7000, 0x8000, 0x9000, 0xA000] := by decide
  have hxfr : xfrBytes 0x1000 40000 = 20480 := by decide
  have hxfr' : xfrBytes 0x6000 19520 = 19520 := by decide
  have hlast : dataTds bulkPipe 1 0x6000 19520 0 =
      some [⟨token 0 19520 1 pidIn, [0x6000, 0x7000, 0x8000, 0x9000, 0xA000]⟩] := by
    rw [dataTds]
    dsimp only
    rw [hsecond, hxfr']
    rfl
  have hall : dataTds bulkPipe 1 0x1000 40000 0 = some bulkTds := by
    rw [dataTds]
    dsimp only
    rw [hfirst, hxfr]
    change (dataTds bulkPipe 1 0x6000 19520 0).map _ = _
    rw [hlast]
    rfl
  exact hall

/-- All qTDs are completed. -/
theorem ehciSubmitAsync_reported_bulk :
  Reported (ehciSubmitAsync bulkPipe 0x1000 40000 none 0 true true fun _ => 0) []
      (executed (fun _ => 0) 0 ([] ++ (bulkTds ++ ackTds bulkPipe none)))
    ↔ ¬ ((true && true) = true ∧ ShortInside (fun _ => 0) [] bulkTds)
  := by
  apply ehciSubmitAsync_reported_iff bulkPipe 0x1000 40000 none 0 true true (fun _ => 0) rfl
    dataPart_bulk
  constructor
  · intro i hi
    exact absurd hi (Nat.not_lt_zero i)
  · intro i _
    exact Nat.zero_le _

/-- One packet arrives of 40000 bytes: 19968 bytes are left of the first qTD, and the second one is
not executed. -/
def onePacket (i : ℕ) : ℕ := if i = 0 then tokenTotalbytes 19968 else statusActive

theorem ehciSubmitAsync_not_reported :
  Plausible onePacket [] (bulkTds ++ ackTds bulkPipe none)
    ∧ (ehciSubmitAsync bulkPipe 0x1000 40000 none 0 true true onePacket).status = 0
    ∧ (ehciSubmitAsync bulkPipe 0x1000 40000 none 0 true true onePacket).actLen = 20032
    ∧ transferred [] (executed onePacket 0 bulkTds) = 512
    ∧ ¬ Reported (ehciSubmitAsync bulkPipe 0x1000 40000 none 0 true true onePacket) []
      (executed onePacket 0 bulkTds)
  := by
  have hsetup : setupTds none = some [] := rfl
  have hrun : ehciSubmitAsync bulkPipe 0x1000 40000 none 0 true true onePacket =
      ⟨0, 0, 20032, 0⟩ := by
    unfold ehciSubmitAsync
    rw [submitAsync_eq hsetup dataPart_bulk]
    rfl
  have hbytes : transferred [] (executed onePacket 0 bulkTds) = 512 := by decide
  rw [hrun]
  refine ⟨⟨?_, ?_⟩, rfl, rfl, hbytes, ?_⟩
  · intro i hi
    exact absurd hi (Nat.not_lt_zero i)
  · decide
  · intro h
    have hactLen := (h rfl).1
    rw [hbytes] at hactLen
    exact absurd hactLen (by decide)

end Ehci
