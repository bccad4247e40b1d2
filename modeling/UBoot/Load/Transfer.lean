import UBoot.Load.Kermit

/-!
# Transferring a file by Kermit

A transfer is a run of `k_recv` together with the sender.  The sender is at the packet `i`,
with the number `i % 64`; it goes on to the next one when it hears that the packet was
acknowledged.  Whether it hears that is up to the line.
-/

namespace Kermit

/-! ### The sender -/

/-- The packet that the sender is at after a round. -/
def nextPacket (i : ℕ) (heard : Bool) : Event → ℕ
  | .accepted n _ _ => if n = i % 64 ∧ heard then i + 1 else i
  | _ => i

/-- The data field of a packet that the sender hears to be acknowledged, with the quote that
it was decoded with. -/
def payload (i : ℕ) (heard : Bool) (r : Round) : List (Byte × List Byte) :=
  match r.event with
  | .accepted n type field =>
    if n = i % 64 ∧ heard ∧ type = dataType then [(r.before.hisQuote, field)] else []
  | _ => []

/-- The data fields of the packets that were acknowledged to the sender. -/
def acknowledged (i : ℕ) : List Round → List Bool → List (Byte × List Byte)
  | [], _ => []
  | r :: rounds, heard =>
    payload i (heard.headD false) r
      ++ acknowledged (nextPacket i (heard.headD false) r.event) rounds heard.tail

/-- The bytes of data fields, one after the other, and the state of the decoder behind them. -/
def decodeAll : Bool → List (Byte × List Byte) → List Byte × Bool
  | escape, [] => ([], escape)
  | escape, (quote, field) :: fields =>
    let (bytes, escape) := decode quote escape field
    let (bytes', escape) := decodeAll escape fields
    (bytes ++ bytes', escape)

theorem decodeAll_append (escape : Bool) (fields fields' : List (Byte × List Byte)) :
  decodeAll escape (fields ++ fields')
    = ((decodeAll escape fields).1 ++ (decodeAll (decodeAll escape fields).2 fields').1,
        (decodeAll (decodeAll escape fields).2 fields').2)
  := by
  induction fields generalizing escape with
  | nil => rfl
  | cons f fields ih =>
    simp only [List.cons_append, decodeAll, ih, List.append_assoc]

/-- Nothing was stored since the checkpoint. -/
def Recv.Settled (s : Recv) : Prop := s.addr = s.addrSaved ∧ s.escape = s.escapeSaved

/-- A round that takes nothing back but what belongs to the packet `i`, and does not leave
the checkpoint behind something that does. -/
def Regular (i : ℕ) (r : Round) : Prop :=
  match number r.input with
  | none => r.before.lastN = some (i % 64) ∨ r.before.Settled
  | some n =>
    n = i % 64
      ∨ r.event = .rejected n
        ∧ (r.before.Settled ∨ r.before.lastN ≠ some n ∧ r.before.lastN ≠ some (i % 64))

/-- Every round is regular for the packet that the sender is at. -/
def RegularRun (i : ℕ) : List Round → List Bool → Prop
  | [], _ => True
  | r :: rounds, heard =>
    Regular i r ∧ RegularRun (nextPacket i (heard.headD false) r.event) rounds heard.tail

/-! ### The invariant -/

/-- The bytes of the packets before `i` are stored, and the packet `i` goes behind them. -/
structure Inv (start i : ℕ) (bytes : List Byte) (escape : Bool) (s : Recv) : Prop where
  addr : (s.checkpoint (i % 64)).addr = start + bytes.length
  escape : (s.checkpoint (i % 64)).escape = escape
  holds : Memory.Holds s.mem start bytes

variable {start i n : ℕ} {bytes : List Byte} {escape : Bool} {s s' : Recv}

theorem checkpoint_of_eq (h : s.lastN = some n) :
  (s.checkpoint n).addr = s.addrSaved ∧ (s.checkpoint n).escape = s.escapeSaved
  := by
  rw [Recv.checkpoint, if_pos h]
  exact ⟨rfl, rfl⟩

theorem checkpoint_of_ne (h : s.lastN ≠ some n) :
  (s.checkpoint n).addr = s.addr ∧ (s.checkpoint n).escape = s.escape
  := by
  rw [Recv.checkpoint, if_neg h]
  exact ⟨rfl, rfl⟩

/-- When nothing was stored since the checkpoint, the number does not matter. -/
theorem Recv.Settled.checkpoint (h : s.Settled) (n : ℕ) :
  (s.checkpoint n).addr = s.addr ∧ (s.checkpoint n).escape = s.escape
  := by
  by_cases hn : s.lastN = some n
  · rw [(checkpoint_of_eq hn).1, (checkpoint_of_eq hn).2]
    exact ⟨h.1.symm, h.2.symm⟩
  · apply checkpoint_of_ne hn

theorem Inv.unnumbered (h : Inv start i bytes escape s)
    (hreg : s.lastN = some (i % 64) ∨ s.Settled) :
  Inv start i bytes escape s.restore
  := by
  have hrestore : (s.restore.checkpoint (i % 64)).addr = (s.checkpoint (i % 64)).addr
      ∧ (s.restore.checkpoint (i % 64)).escape = (s.checkpoint (i % 64)).escape := by
    have hsettled : s.restore.Settled := ⟨rfl, rfl⟩
    obtain ⟨haddr, hescape⟩ := hsettled.checkpoint (i % 64)
    rw [haddr, hescape]
    rcases hreg with hlast | hs
    · obtain ⟨haddr', hescape'⟩ := checkpoint_of_eq hlast
      exact ⟨haddr'.symm, hescape'.symm⟩
    · obtain ⟨haddr', hescape'⟩ := hs.checkpoint (i % 64)
      rw [haddr', hescape', hs.1, hs.2]
      exact ⟨rfl, rfl⟩
  exact ⟨hrestore.1.trans h.addr, hrestore.2.trans h.escape, h.holds⟩

/-- What is stored before the checkpoint stays. -/
theorem Inv.holds_of_began {bytes' : List Byte} (h : Inv start i bytes escape s)
    (haddr : (s.checkpoint n).addr = start + bytes.length) (hbegan : Began s n bytes' s') :
  Memory.Holds s'.mem start (bytes ++ bytes')
  := by
  rw [hbegan.mem, haddr]
  apply Memory.holds_append.mpr
  constructor
  · apply h.holds.store
    left
    apply le_refl
  · apply Memory.holds_store

theorem Inv.rejected {bytes' : List Byte} (h : Inv start i bytes escape s)
    (hreg : n = i % 64 ∨ s.Settled ∨ s.lastN ≠ some n ∧ s.lastN ≠ some (i % 64))
    (hbegan : Began s n bytes' s') (haddr : s'.addr = (s.checkpoint n).addr)
    (hescape : s'.escape = (s.checkpoint n).escape) :
  Inv start i bytes escape s'
  := by
  -- the packet begins where the packet `i` does
  have hsame : (s.checkpoint n).addr = (s.checkpoint (i % 64)).addr
      ∧ (s.checkpoint n).escape = (s.checkpoint (i % 64)).escape := by
    rcases hreg with rfl | hs | ⟨hn, hi⟩
    · exact ⟨rfl, rfl⟩
    · rw [(hs.checkpoint n).1, (hs.checkpoint n).2]
      exact ⟨(hs.checkpoint _).1.symm, (hs.checkpoint _).2.symm⟩
    · rw [(checkpoint_of_ne hn).1, (checkpoint_of_ne hn).2]
      exact ⟨(checkpoint_of_ne hi).1.symm, (checkpoint_of_ne hi).2.symm⟩
  have hs' : s'.Settled := ⟨haddr.trans hbegan.addrSaved.symm, hescape.trans hbegan.escapeSaved.symm⟩
  obtain ⟨haddr', hescape'⟩ := hs'.checkpoint (i % 64)
  refine ⟨?_, ?_, ?_⟩
  · rw [haddr', haddr, hsame.1, h.addr]
  · rw [hescape', hescape, hsame.2, h.escape]
  · apply (Memory.holds_append.mp (h.holds_of_began (hsame.1.trans h.addr) hbegan)).1

/-- The packet is acknowledged, and the sender does not hear it. -/
theorem Inv.accepted_again {bytes' : List Byte} (h : Inv start i bytes escape s)
    (hbegan : Began s (i % 64) bytes' s') :
  Inv start i bytes escape s'
  := by
  obtain ⟨haddr, hescape⟩ := checkpoint_of_eq hbegan.lastN
  refine ⟨?_, ?_, ?_⟩
  · rw [haddr, hbegan.addrSaved, h.addr]
  · rw [hescape, hbegan.escapeSaved, h.escape]
  · apply (Memory.holds_append.mp (h.holds_of_began h.addr hbegan)).1

/-- The packet is acknowledged, and the sender goes on. -/
theorem Inv.accepted {bytes' : List Byte} {escape' : Bool} (h : Inv start i bytes escape s)
    (hbegan : Began s (i % 64) bytes' s')
    (haddr : s'.addr = (s.checkpoint (i % 64)).addr + bytes'.length) (hescape : s'.escape = escape') :
  Inv start (i + 1) (bytes ++ bytes') escape' s'
  := by
  have hne : s'.lastN ≠ some ((i + 1) % 64) := by
    rw [hbegan.lastN]
    intro heq
    have := Option.some.inj heq
    omega
  obtain ⟨haddr', hescape'⟩ := checkpoint_of_ne hne
  refine ⟨?_, ?_, h.holds_of_began h.addr hbegan⟩
  · rw [haddr', haddr, h.addr, List.length_append]
    omega
  · rw [hescape', hescape]

/-! ### The run -/

theorem Inv.newPacket (h : Inv start i bytes escape s) :
  Inv start i bytes escape s.newPacket
  := by
  have hcheckpoint : (s.newPacket.checkpoint (i % 64)).addr = (s.checkpoint (i % 64)).addr
      ∧ (s.newPacket.checkpoint (i % 64)).escape = (s.checkpoint (i % 64)).escape := by
    by_cases hn : s.lastN = some (i % 64)
    · rw [(checkpoint_of_eq hn).1, (checkpoint_of_eq hn).2]
      apply checkpoint_of_eq (s := s.newPacket) hn
    · rw [(checkpoint_of_ne hn).1, (checkpoint_of_ne hn).2]
      apply checkpoint_of_ne (s := s.newPacket) hn
  exact ⟨hcheckpoint.1.trans h.addr, hcheckpoint.2.trans h.escape, h.holds⟩

/-- What a packet stores for the invariant is what is decoded of it. -/
theorem Inv.stored (h : Inv start i bytes escape s) (type : Byte) (field : List Byte) :
  (s.checkpoint (i % 64)).stored type field
    = if type = dataType then decode s.hisQuote escape field else ([], escape)
  := by
  rw [Recv.stored, h.escape, (checkpoint_spec s _).2.2.2.2.2]

/-- **One round.**  It keeps the invariant for the packet that the sender is at behind it. -/
theorem Inv.round {input : List Byte} {r : Received} (h : Inv start i bytes escape s)
    (hpacket : packet s input = some r) (hreg : Regular i ⟨s, input, r.1⟩) (heard : Bool) :
  Inv start (nextPacket i heard r.1)
    (bytes ++ (decodeAll escape (payload i heard ⟨s, input, r.1⟩)).1)
    (decodeAll escape (payload i heard ⟨s, input, r.1⟩)).2 r.2.1
  := by
  obtain ⟨event, t, rest⟩ := r
  rcases packet_cases hpacket with ⟨hnumber, hevent, hstate⟩ | ⟨n, type, hnumber, hends⟩
  · simp only at hevent hstate
    subst hevent hstate
    simp only [Regular, hnumber] at hreg
    simpa [nextPacket, payload, decodeAll] using h.unnumbered hreg
  · simp only [Regular, hnumber] at hreg
    rcases packet_numbered hends with ⟨hevent, haddr, hescape, bytes', hbegan⟩ |
      ⟨field, hevent, hbegan, haddr, hescape⟩
    · simp only at hevent haddr hescape hbegan
      subst hevent
      have hreg' : n = i % 64 ∨ s.Settled ∨ s.lastN ≠ some n ∧ s.lastN ≠ some (i % 64) :=
        hreg.imp_right And.right
      simpa [nextPacket, payload, decodeAll] using h.rejected hreg' hbegan haddr hescape
    · simp only at hevent haddr hescape hbegan
      subst hevent
      obtain rfl : n = i % 64 := by simpa using hreg
      cases heard with
      | false => simpa [nextPacket, payload, decodeAll] using h.accepted_again hbegan
      | true =>
        rw [h.stored] at hbegan haddr hescape
        by_cases htype : type = dataType
        · rw [if_pos htype] at hbegan haddr hescape
          simpa [nextPacket, payload, decodeAll, htype] using h.accepted hbegan haddr hescape
        · rw [if_neg htype] at hbegan haddr hescape
          simpa [nextPacket, payload, decodeAll, htype] using h.accepted hbegan haddr hescape

/-- The packet that ends the transmission stores nothing. -/
theorem Inv.break {input : List Byte} {r : Received} (h : Inv start i bytes escape s)
    (hpacket : packet s input = some r) (hreg : Regular i ⟨s, input, r.1⟩)
    (hbreak : r.1.isBreak) (heard : Bool) :
  Memory.Holds r.2.1.mem start bytes ∧ r.2.1.addr = start + bytes.length
    ∧ payload i heard ⟨s, input, r.1⟩ = []
  := by
  obtain ⟨event, t, rest⟩ := r
  rcases packet_cases hpacket with ⟨-, hevent, -⟩ | ⟨n, type, hnumber, hends⟩
  · simp only at hevent
    subst hevent
    cases hbreak
  · simp only [Regular, hnumber] at hreg
    rcases packet_numbered hends with ⟨hevent, -⟩ | ⟨field, hevent, hbegan, haddr, -⟩
    · simp only at hevent
      subst hevent
      cases hbreak
    · simp only at hevent haddr hbegan
      subst hevent
      obtain rfl : n = i % 64 := by simpa using hreg
      have htype : type ≠ dataType := by
        rintro rfl
        cases hbreak
      rw [h.stored, if_neg htype] at hbegan haddr
      refine ⟨?_, ?_, ?_⟩
      · simpa using h.holds_of_began h.addr hbegan
      · rw [haddr, h.addr]
        rfl
      · simp [payload, htype]

/-- **Every run.**  From a state where the packets before `i` are stored, a run that ends with
the end of the transmission stores the packets that are acknowledged in it behind them. -/
theorem kLoop_stored {fuel : ℕ} {input : List Byte} {out : Outcome} {size : ℕ}
    {heard : List Bool} (h : Inv start i bytes escape s)
    (hrun : kLoop start fuel s input = some out) (hsize : out.size = some size)
    (hreg : RegularRun i out.rounds heard) :
  Memory.Holds out.mem start (bytes ++ (decodeAll escape (acknowledged i out.rounds heard)).1)
    ∧ size = (bytes ++ (decodeAll escape (acknowledged i out.rounds heard)).1).length
  := by
  induction fuel generalizing s input out i bytes escape heard with
  | zero => cases hrun
  | succ fuel ih =>
    rw [kLoop] at hrun
    split at hrun
    · cases hrun
    · -- a `^C` is not an end of the transmission
      obtain rfl := Option.some.inj hrun
      cases hsize
    · split at hrun
      · cases hrun
      case h_2 event s' rest hpacket =>
        simp only at hrun
        split at hrun
        case isTrue hbreak =>
          obtain rfl := Option.some.inj hrun
          obtain ⟨hholds, haddr, hpayload⟩ :=
            h.newPacket.break hpacket hreg.1 hbreak (heard.headD false)
          obtain rfl := Option.some.inj hsize
          simp only [acknowledged, hpayload, List.append_nil, decodeAll]
          simp only at hholds haddr
          exact ⟨hholds, by omega⟩
        case isFalse =>
          obtain ⟨out', hrun', rfl⟩ := Option.map_eq_some_iff.mp hrun
          have hround := h.newPacket.round hpacket hreg.1 (heard.headD false)
          have hrest := ih hround hrun' hsize hreg.2
          simp only [acknowledged, decodeAll_append]
          rwa [List.append_assoc] at hrest

theorem Inv.init (mem : ℕ → Byte) (start : ℕ) :
  Inv start 0 [] false (Recv.init mem start)
  := ⟨rfl, rfl, Memory.holds_nil _ _⟩

/-- **A Kermit transfer.**  When `k_recv` returns and every round was regular, the bytes of the
data packets that were acknowledged to the sender are stored from `start`, in their order and
once each, and the size is their length. -/
theorem kRecv_stored (mem : ℕ → Byte) (start : ℕ) (input : List Byte) (heard : List Bool)
    {out : Outcome} {size : ℕ} (h : kRecv mem start input = some out)
    (hsize : out.size = some size) (hreg : RegularRun 0 out.rounds heard) :
  Memory.Holds out.mem start (decodeAll false (acknowledged 0 out.rounds heard)).1
    ∧ size = (decodeAll false (acknowledged 0 out.rounds heard)).1.length
  := by
  apply kLoop_stored (Inv.init mem start) h hsize hreg

instance (s : Recv) : Decidable s.Settled
  := inferInstanceAs (Decidable (_ ∧ _))

instance (i : ℕ) (r : Round) : Decidable (Regular i r)
  :=
  match h : number r.input with
  | none =>
    decidable_of_iff (r.before.lastN = some (i % 64) ∨ r.before.Settled) (by simp only [Regular, h])
  | some n =>
    decidable_of_iff
      (n = i % 64
        ∨ r.event = .rejected n
          ∧ (r.before.Settled ∨ r.before.lastN ≠ some n ∧ r.before.lastN ≠ some (i % 64)))
      (by simp only [Regular, h])

instance decidableRegularRun : (i : ℕ) → (rounds : List Round) → (heard : List Bool) →
    Decidable (RegularRun i rounds heard)
  | _, [], _ => .isTrue trivial
  | i, r :: rounds, heard =>
    have := decidableRegularRun (nextPacket i (heard.headD false) r.event) rounds heard.tail
    inferInstanceAs (Decidable (Regular i r ∧ _))

/-- A transfer in which `damaged` arrives of the second data packet; the packet is then
acknowledged twice. -/
def transfer (damaged : List Byte) : List Byte :=
  startChar :: frame 0 sendType [0x7e, 0x21, 0x20, 0x40, 0x2d, 0x23]
    ++ startChar :: frame 1 dataType [0x41, 0x23, 0x4a]
    ++ startChar :: damaged
    ++ startChar :: frame 2 dataType [0x42, 0x43]
    ++ startChar :: frame 2 dataType [0x42, 0x43]
    ++ startChar :: frame 3 breakType []

/-- The sender does not hear the first of the two acknowledgements. -/
def transferHeard : List Bool := [true, true, false, false, true, true]

/-- A data character is damaged. -/
theorem kRecv_stored_data_damaged :
  ∃ out, kRecv (fun _ => 0) 0 (transfer ((frame 2 dataType [0x42, 0x43]).set 4 0x58)) = some out
    ∧ out.size = some 4 ∧ RegularRun 0 out.rounds transferHeard
    ∧ Memory.Holds out.mem 0 [0x41, 0x0a, 0x42, 0x43]
  := by
  obtain ⟨out, h, hsize, hreg, hbytes⟩ :
      ∃ out, kRecv (fun _ => 0) 0 (transfer ((frame 2 dataType [0x42, 0x43]).set 4 0x58)) = some out
        ∧ out.size = some 4 ∧ RegularRun 0 out.rounds transferHeard
        ∧ (decodeAll false (acknowledged 0 out.rounds transferHeard)).1 = [0x41, 0x0a, 0x42, 0x43] :=
    ⟨(kRecv (fun _ => 0) 0 _).get (by decide +kernel), (Option.some_get _).symm, by decide +kernel,
      by decide +kernel, by decide +kernel⟩
  have hstored := kRecv_stored (fun _ => 0) 0 _ transferHeard h hsize hreg
  rw [hbytes] at hstored
  exact ⟨out, h, hsize, hreg, hstored.1⟩

/-- The length is damaged to a control character: although the packets are acknowledged as
they were sent, the first data packet is taken back. -/
theorem kRecv_length_damaged :
  ∃ out, kRecv (fun _ => 0) 0 (transfer ((frame 2 dataType [0x42, 0x43]).set 0 0x10)) = some out
    ∧ out.rounds.map Round.event
      = [.accepted 0 sendType [0x7e, 0x21, 0x20, 0x40, 0x2d, 0x23],
        .accepted 1 dataType [0x41, 0x23, 0x4a],
        .unnumbered,
        .accepted 2 dataType [0x42, 0x43],
        .accepted 2 dataType [0x42, 0x43],
        .accepted 3 breakType []]
    ∧ (decodeAll false (acknowledged 0 out.rounds transferHeard)).1 = [0x41, 0x0a, 0x42, 0x43]
    ∧ out.size = some 2
    ∧ ¬ Memory.Holds out.mem 0 [0x41, 0x0a, 0x42, 0x43]
  := by
  refine ⟨(kRecv (fun _ => 0) 0 _).get (by decide +kernel), (Option.some_get _).symm,
    by decide +kernel, by decide +kernel, by decide +kernel, ?_⟩
  intro hholds
  apply absurd hholds.1
  decide +kernel

end Kermit
