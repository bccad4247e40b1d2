import UBoot.Net.NfsCopies

/-!
# What the NFS client loads

The replies of a server arrive in some order, and between them other packets.  The theorem says
that other packets change nothing, and that after a success the file is in memory, as long as the
client is not given a reply to another call: it takes that for a failure of its own.
-/

namespace Nfs

/-! ### Runs -/

/-- What is in a file. -/
structure File where
  bytes : List Byte
  length_lt : bytes.length < 2 ^ 32

/-- The client, the last call that it sent, and what it stored. -/
structure Session where
  client : Client
  last : List Byte
  log : List (Word × List Byte)

/-- The last call. -/
def lastCall (last : List Byte) (actions : List Action) : List Byte :=
  actions.foldl (fun
    | last, .store _ _ => last
    | last, .startAgain => last
    | _, .send _ payload => payload) last

/-- The session after something was done. -/
def Session.after (s : Session) (r : Client × List Action) : Session :=
  ⟨r.1, lastCall s.last r.2, s.log ++ stored r.2⟩

/-- One event. -/
def Session.step (s : Session) (e : Event) : Option Session := some (s.after (react s.client e))

/-- The session when `NfsStart` returns. -/
def Session.start (c : Client) (path : List Byte) : Session :=
  Session.after ⟨c, [], []⟩ (nfsStart c path)

/-- The packet is a reply to the last call. -/
def Answers (c : Client) (p : Received) : Prop := 4 ≤ p.len ∧ replyId p.pkt = c.rpcId

instance (c : Client) (p : Received) : Decidable (Answers c p) :=
  inferInstanceAs (Decidable (_ ∧ _))

/-- What a server sends: to a call of `NFS_READ`, the part of the file that was asked for, and
to a call for something that is no file, an error. -/
def Honest (files : List Byte → Option File) (s : Session) : Event → Prop
  | .receive p => ∀ fh offset readlen,
    s.last = rpcCall s.client.rpcId progNfs nfsRead (readArgs fh offset readlen) →
    Answers s.client p → replyRstatus p.pkt = 0 → replyAstatus p.pkt = 0 →
      (replyData p.pkt 0 = 0 → ∃ f, files fh = some f
        ∧ (replyData p.pkt 18).toNat = ((f.bytes.drop offset.toNat).take readlen.toNat).length
        ∧ Memory.Holds p.pkt replySize ((f.bytes.drop offset.toNat).take readlen.toNat))
      ∧ (replyData p.pkt 0 = nfserrIsdir ∨ replyData p.pkt 0 = nfserrInval → files fh = none)
      ∧ (replyData p.pkt 0).toNat < 2 ^ 31
  | .timeout => True

/-- The client is given replies to its last call only, which fit into its buffers, and no reply to a
read with a verifier. -/
def Meets (s : Session) : Event → Prop
  | .receive p => s.client.listening = true → p.dest = s.client.nfsOurPort →
    Answers s.client p ∧ (∀ w ∈ copies s.client p, w.InBounds)
      ∧ (s.client.nfsState = .readReq → replyRstatus p.pkt = 0 → replyAstatus p.pkt = 0 →
        replyData p.pkt 0 = 0 → replyVerifier p.pkt = 0)
  | .timeout => True

/-- Some bytes are in memory, and each of them was stored once, in order. -/
def Loaded (c : Client) (log : List (Word × List Byte)) (bytes : List Byte) : Prop :=
  (∃ pieces, pieces.flatten = bytes ∧ log = AddressSpace.storesAt 0 pieces)
    ∧ AddressSpace.Contains c.mem c.loadAddr bytes
    ∧ c.netBootFileXferSize = BitVec.ofNat 32 bytes.length

/-- A packet that is no reply to the last call changes nothing, and after a success the file has
been loaded. -/
def Sound (files : List Byte → Option File) (s : Session) (e : Event) : Prop :=
  (∀ p, e = .receive p → ¬ Answers s.client p → react s.client e = (s.client, []))
    ∧ (s.client.netState = .netloopSuccess →
      ∃ f, files s.client.filefh = some f ∧ Loaded s.client s.log f.bytes)

/-! ### Sending -/

variable {files : List Byte → Option File} {c : Client} {log : List (Word × List Byte)}

/-- The call for a part of the file. -/
theorem lastCall_nfsSend {s : Session} (h : c.nfsState = .readReq) :
  (s.after (nfsSend c)).last
    = rpcCall (nfsSend c).1.rpcId progNfs nfsRead (readArgs c.filefh c.nfsOffset c.nfsLen)
  := by
  unfold nfsSend
  rw [h]
  rfl

/-! ### What is known of the client -/

/-- The client has loaded nothing until it reads, then what was read, and after a success the
whole file. -/
structure Core (files : List Byte → Option File) (c : Client) (log : List (Word × List Byte)) :
    Prop where
  before : c.nfsState ≠ .readReq → c.nfsState ≠ .umountReq → log = [] ∧ c.netBootFileXferSize = 0
  len : c.nfsState = .readReq → c.nfsLen = nfsReadSize
  nothing : c.nfsState = .readReq → files c.filefh = none → log = [] ∧ c.netBootFileXferSize = 0
  reading : c.nfsState = .readReq → ∀ f, files c.filefh = some f →
    c.nfsOffset.toNat ≤ f.bytes.length ∧ Loaded c log (f.bytes.take c.nfsOffset.toNat)
  done : c.nfsDownloadState = .netloopSuccess → c.nfsState = .umountReq
    ∧ ∃ f, files c.filefh = some f ∧ Loaded c log f.bytes
  net : c.netState = .netloopSuccess → c.nfsDownloadState = .netloopSuccess

/-- What is known between two events: besides, the last call was for the part of the file that
is to be read next. -/
structure Inv (files : List Byte → Option File) (s : Session) : Prop where
  core : Core files s.client s.log
  last : s.client.nfsState = .readReq →
    s.last = rpcCall s.client.rpcId progNfs nfsRead
      (readArgs s.client.filefh s.client.nfsOffset s.client.nfsLen)

/-- What a reply does not change until the file is read. -/
structure Keeps (c c' : Client) : Prop where
  netBootFileXferSize : c'.netBootFileXferSize = c.netBootFileXferSize
  nfsDownloadState : c'.nfsDownloadState = c.nfsDownloadState
  netState : c'.netState = c.netState

theorem keeps_rpcLookupReply (c : Client) (prog : Word) (p : Received) :
  Keeps c (rpcLookupReply c prog p).1
  := by
  unfold rpcLookupReply
  split_ifs
  all_goals exact ⟨rfl, rfl, rfl⟩

theorem keeps_nfsMountReply (c : Client) (p : Received) :
  Keeps c (nfsMountReply c p).1
  := by
  unfold nfsMountReply
  split_ifs
  all_goals exact ⟨rfl, rfl, rfl⟩

theorem keeps_nfsLookupReply (c : Client) (p : Received) :
  Keeps c (nfsLookupReply c p).1
  := by
  unfold nfsLookupReply
  split_ifs
  all_goals exact ⟨rfl, rfl, rfl⟩

theorem keeps_nfsReadlinkReply (c : Client) (p : Received) :
  Keeps c (nfsReadlinkReply c p).1
  := by
  unfold nfsReadlinkReply
  split_ifs
  all_goals exact ⟨rfl, rfl, rfl⟩

/-- The download has not succeeded yet. -/
theorem Core.not_success (h : Core files c log) (hstate : c.nfsState ≠ .umountReq) :
  c.nfsDownloadState ≠ .netloopSuccess
  := by
  intro hdown
  apply hstate (h.done hdown).1

theorem Core.net_of_keeps {c' : Client} (h : Core files c log) (hkeeps : Keeps c c') :
  c'.netState = .netloopSuccess → c'.nfsDownloadState = .netloopSuccess
  := by
  rw [hkeeps.netState, hkeeps.nfsDownloadState]
  apply h.net

/-- When the directory is unmounted, only what was loaded matters. -/
theorem core_umountReq (hstate : c.nfsState = .umountReq)
    (hdone : c.nfsDownloadState = .netloopSuccess →
      ∃ f, files c.filefh = some f ∧ Loaded c log f.bytes)
    (hnet : c.netState = .netloopSuccess → c.nfsDownloadState = .netloopSuccess) :
  Core files c log
  := by
  have hread : c.nfsState ≠ .readReq := by
    rw [hstate]
    nofun
  constructor
  case before =>
    intro _ hne
    apply absurd hstate hne
  case len =>
    intro hread'
    apply absurd hread' hread
  case nothing =>
    intro hread'
    apply absurd hread' hread
  case reading =>
    intro hread'
    apply absurd hread' hread
  case done => exact fun hdown => ⟨hstate, hdone hdown⟩
  case net => apply hnet

/-- Giving up. -/
theorem Core.giveUp {c' : Client} (h : Core files c log) (hstate : c.nfsState ≠ .umountReq)
    (hkeeps : Keeps c c') (hstate' : c'.nfsState = .umountReq) :
  Core files c' log
  := by
  apply core_umountReq hstate' _ (h.net_of_keeps hkeeps)
  intro hdown
  apply absurd (hkeeps.nfsDownloadState ▸ hdown) (h.not_success hstate)

/-- Before anything is read the ports, the handles and the names change. -/
theorem Core.goOn {c' : Client} (h : Core files c log) (hstate : c.nfsState ≠ .umountReq)
    (hempty : log = [] ∧ c.netBootFileXferSize = 0) (hkeeps : Keeps c c')
    (hread : c'.nfsState ≠ .readReq) :
  Core files c' log
  where
  before _ _ := by rwa [hkeeps.netBootFileXferSize]
  len hread' := absurd hread' hread
  nothing hread' := absurd hread' hread
  reading hread' := absurd hread' hread
  done hdown := absurd (hkeeps.nfsDownloadState ▸ hdown) (h.not_success hstate)
  net := h.net_of_keeps hkeeps

theorem loaded_nil (h : log = [] ∧ c.netBootFileXferSize = 0) :
  Loaded c log []
  := ⟨⟨[], rfl, h.1⟩, AddressSpace.contains_nil _ _, h.2⟩

/-- A file was found. -/
theorem Core.found {c' : Client} (h : Core files c log) (hstate : c.nfsState ≠ .umountReq)
    (hempty : log = [] ∧ c.netBootFileXferSize = 0) (hkeeps : Keeps c c')
    (hstate' : c'.nfsState = .readReq) (hoffset : c'.nfsOffset = 0)
    (hlen : c'.nfsLen = nfsReadSize) :
  Core files c' log
  := by
  have hempty : log = [] ∧ c'.netBootFileXferSize = 0 := by rwa [hkeeps.netBootFileXferSize]
  constructor
  case before =>
    intro hread
    apply absurd hstate' hread
  case len => exact fun _ => hlen
  case nothing => exact fun _ _ => hempty
  case reading =>
    intro _ f _
    rw [hoffset]
    refine ⟨Nat.zero_le _, ?_⟩
    apply loaded_nil hempty
  case done =>
    intro hdown
    apply absurd (hkeeps.nfsDownloadState ▸ hdown) (h.not_success hstate)
  case net => apply h.net_of_keeps hkeeps

/-- The id of the next call and the timeouts do not matter. -/
theorem Core.setId (h : Core files c log) (id : Word) (count : ℕ) (listening : Bool) :
  Core files { c with rpcId := id, nfsTimeoutCount := count, listening := listening } log
  := ⟨h.before, h.len, h.nothing, h.reading, h.done, h.net⟩

/-- What is known after a call. -/
theorem Core.send (h : Core files c log) (last : List Byte) :
  Inv files (Session.after ⟨c, last, log⟩ (nfsSend c))
  := by
  obtain ⟨id, hclient, hstored⟩ := nfsSend_eq c
  constructor
  · unfold Session.after
    rw [hclient, hstored, List.append_nil]
    apply h.setId
  · intro hread
    have hstate : (nfsSend c).1.nfsState = c.nfsState := by rw [hclient]
    rw [lastCall_nfsSend (hstate.symm.trans hread), Session.after, hclient]

/-! ### Reading -/

/-- A piece is stored behind what was loaded. -/
theorem Loaded.store {bytes : List Byte} (h : Loaded c log bytes) (piece : List Byte)
    (hoffset : c.nfsOffset = BitVec.ofNat 32 bytes.length)
    (hlen : bytes.length + piece.length < 2 ^ 32) :
  Loaded (storeBlock c c.nfsOffset piece).1 (log ++ [(c.nfsOffset, piece)]) (bytes ++ piece)
  := by
  obtain ⟨⟨pieces, rfl, hlog⟩, hmem, hsize⟩ := h
  refine ⟨⟨pieces ++ [piece], ?_, ?_⟩, ?_, ?_⟩
  · rw [List.flatten_append, List.flatten_singleton]
  · rw [AddressSpace.storesAt_append, ← hlog, Nat.zero_add, hoffset]
  · rw [hoffset]
    apply hmem.copy_append piece hlen
  · have hnew : c.nfsOffset + BitVec.ofNat 32 piece.length
        = BitVec.ofNat 32 (pieces.flatten ++ piece).length := by
      rw [hoffset, ← BitVec.ofNat_add, List.length_append]
    rw [storeBlock]
    simp only
    rw [hnew, hsize]
    split_ifs with hlt
    · rfl
    · rw [BitVec.lt_def, BitVec.toNat_ofNat, BitVec.toNat_ofNat, List.length_append,
        Nat.mod_eq_of_lt (by omega), Nat.mod_eq_of_lt hlen] at hlt
      rw [List.length_append]
      congr 1
      omega

/-- The part of a file that is asked for. -/
def part (f : File) (offset : Word) : List Byte :=
  (f.bytes.drop offset.toNat).take nfsReadSize.toNat

/-- A reply to a read has the part of the file that was asked for, or it is an error. -/
theorem nfsReadReply_cases {s : Session} {p : Received} (hinv : Inv files s)
    (hstate : s.client.nfsState = .readReq) (hanswers : Answers s.client p)
    (hverifier : replyRstatus p.pkt = 0 → replyAstatus p.pkt = 0 → replyData p.pkt 0 = 0 →
      replyVerifier p.pkt = 0)
    (hhonest : Honest files s (.receive p)) :
  (∃ f, files s.client.filefh = some f
    ∧ nfsReadReply s.client p
      = (storeBlock s.client s.client.nfsOffset (part f s.client.nfsOffset),
        ((part f s.client.nfsOffset).length : ℤ)))
  ∨ ∃ rlen, nfsReadReply s.client p = ((s.client, []), rlen) ∧ rlen < 0
    ∧ (rlen = - nfserrIsdir.toInt ∨ rlen = - nfserrInval.toInt → files s.client.filefh = none)
  := by
  have hanswer := hhonest _ _ _ (hinv.last hstate) hanswers
  unfold nfsReadReply
  rw [if_neg (not_not.mpr hanswers.2)]
  by_cases hr : replyRstatus p.pkt = 0
  case neg =>
    rw [if_pos (.inl (.inr (.inl hr))), if_pos hr]
    exact .inr ⟨-9999, rfl, by decide, fun h => absurd h (by decide)⟩
  by_cases ha : replyAstatus p.pkt = 0
  case neg =>
    rw [if_pos (.inl (.inr (.inr (.inr ha)))), if_neg (not_not.mpr hr), if_pos ha]
    exact .inr ⟨-9999, rfl, by decide, fun h => absurd h (by decide)⟩
  obtain ⟨hdata, hnofile, hsmall⟩ := hanswer hr ha
  by_cases hd : replyData p.pkt 0 = 0
  · obtain ⟨f, hf, hlen, hholds⟩ := hdata hd
    have hgood : ¬ (replyBad s.client p.pkt ∨ replyData p.pkt 0 ≠ 0) := by
      rintro ((h | h | h | h) | h)
      · apply h hanswers.2
      · apply h hr
      · apply h (hverifier hr ha hd)
      · apply h ha
      · apply h hd
    rw [if_neg hgood]
    rw [hinv.core.len hstate] at hlen hholds
    refine .inl ⟨f, hf, ?_⟩
    have hshort : (part f s.client.nfsOffset).length ≤ 1024 := List.length_take_le _ _
    have hread : Memory.read p.pkt replySize (replyData p.pkt 18).toNat
        = part f s.client.nfsOffset := by
      rw [hlen]
      apply hholds.read_eq
    simp only
    rw [hread]
    congr 1
    rw [BitVec.toInt_eq_toNat_of_lt, hlen]
    · rfl
    · rw [hlen]
      unfold part at hshort
      omega
  · rw [if_pos (.inr hd), if_neg (not_not.mpr hr), if_neg (not_not.mpr ha)]
    refine .inr ⟨_, rfl, ?_⟩
    have hpos : (replyData p.pkt 0).toNat ≠ 0 := by
      intro hzero
      apply hd
      apply BitVec.eq_of_toNat_eq hzero
    have hneg : (- replyData p.pkt 0).toInt = - ((replyData p.pkt 0).toNat : ℤ) := by
      rw [BitVec.toInt_eq_toNat_bmod, BitVec.toNat_neg]
      rw [Int.bmod_def]
      omega
    rw [hneg]
    refine ⟨by omega, ?_⟩
    rintro (h | h)
    · apply hnofile
      left
      apply BitVec.eq_of_toNat_eq
      rw [show nfserrIsdir.toInt = 21 from rfl] at h
      rw [show nfserrIsdir.toNat = 21 from rfl]
      omega
    · apply hnofile
      right
      apply BitVec.eq_of_toNat_eq
      rw [show nfserrInval.toInt = 22 from rfl] at h
      rw [show nfserrInval.toNat = 22 from rfl]
      omega

/-- What was read so far, and the next part. -/
theorem take_append_part (f : File) (offset : Word) :
  f.bytes.take offset.toNat ++ part f offset
    = f.bytes.take (offset.toNat + (part f offset).length)
  := by
  unfold part
  rw [List.take_add]
  congr 1
  rw [List.take_eq_take_iff, List.length_take]
  omega

/-- A part of the file is stored. -/
theorem Core.loaded_part {f : File} (h : Core files c log) (hstate : c.nfsState = .readReq)
    (hf : files c.filefh = some f) :
  c.nfsOffset.toNat + (part f c.nfsOffset).length ≤ f.bytes.length
    ∧ Loaded (storeBlock c c.nfsOffset (part f c.nfsOffset)).1
      (log ++ [(c.nfsOffset, part f c.nfsOffset)])
      (f.bytes.take (c.nfsOffset.toNat + (part f c.nfsOffset).length))
  := by
  obtain ⟨hle, hloaded⟩ := h.reading hstate f hf
  have htake : (f.bytes.take c.nfsOffset.toNat).length = c.nfsOffset.toNat := by
    rw [List.length_take, Nat.min_eq_left hle]
  have hpart : (part f c.nfsOffset).length ≤ f.bytes.length - c.nfsOffset.toNat := by
    rw [← List.length_drop]
    apply List.length_take_le'
  have hlt := f.length_lt
  refine ⟨by omega, ?_⟩
  rw [← take_append_part]
  apply hloaded.store
  · rw [htake, BitVec.ofNat_toNat, BitVec.setWidth_eq]
  · rw [htake]
    omega

/-- The next part is asked for. -/
theorem Core.readOn {f : File} (h : Core files c log) (hstate : c.nfsState = .readReq)
    (hf : files c.filefh = some f) :
  Core files
    { (storeBlock c c.nfsOffset (part f c.nfsOffset)).1 with
      nfsOffset := c.nfsOffset + BitVec.ofInt 32 ((part f c.nfsOffset).length : ℤ) }
    (log ++ [(c.nfsOffset, part f c.nfsOffset)])
  := by
  obtain ⟨hle, hloaded⟩ := h.loaded_part hstate hf
  have hlt := f.length_lt
  have hoffset : (c.nfsOffset + BitVec.ofInt 32 ((part f c.nfsOffset).length : ℤ)).toNat
      = c.nfsOffset.toNat + (part f c.nfsOffset).length := by
    rw [BitVec.ofInt_natCast, BitVec.toNat_add, BitVec.toNat_ofNat, Nat.add_mod_mod,
      Nat.mod_eq_of_lt (by omega)]
  constructor
  case before =>
    intro hne
    apply absurd hstate hne
  case len => apply h.len
  case nothing =>
    intro _ hnone
    cases hf.symm.trans hnone
  case reading =>
    intro _ g hg
    obtain rfl := Option.some.inj (hf.symm.trans hg)
    rw [hoffset]
    exact ⟨hle, hloaded⟩
  case done =>
    intro hdown
    apply absurd hdown (h.not_success _)
    rw [hstate]
    nofun
  case net => apply h.net

/-- The last part was empty. -/
theorem Core.finish {f : File} (h : Core files c log) (hstate : c.nfsState = .readReq)
    (hf : files c.filefh = some f) (hempty : (part f c.nfsOffset).length = 0) :
  Core files
    { (storeBlock c c.nfsOffset (part f c.nfsOffset)).1 with
      nfsDownloadState := .netloopSuccess
      nfsState := .umountReq }
    (log ++ [(c.nfsOffset, part f c.nfsOffset)])
  := by
  obtain ⟨-, hloaded⟩ := h.loaded_part hstate hf
  have hend : f.bytes.length ≤ c.nfsOffset.toNat := by
    rw [part, List.length_take, List.length_drop, show nfsReadSize.toNat = 1024 from rfl] at hempty
    omega
  rw [hempty, Nat.add_zero, List.take_of_length_le hend] at hloaded
  apply core_umountReq
  · rfl
  · exact fun _ => ⟨f, hf, hloaded⟩
  · exact fun _ => rfl

/-! ### One event -/

theorem storeBlock_snd (c : Client) (offset : Word) (bytes : List Byte) :
  (storeBlock c offset bytes).2 = [.store offset bytes]
  := rfl

/-- A piece is stored before something else is done. -/
theorem after_store (s : Session) (c : Client) (offset : Word) (bytes : List Byte)
    (r : Client × List Action) :
  s.after (r.1, [.store offset bytes] ++ r.2)
    = Session.after ⟨c, s.last, s.log ++ [(offset, bytes)]⟩ r
  := by
  simp [Session.after, lastCall, stored]

/-- Nothing was read yet. -/
theorem Core.empty (h : Core files c log) {state : State} (hstate : c.nfsState = state)
    (hread : state ≠ .readReq) (humount : state ≠ .umountReq) :
  log = [] ∧ c.netBootFileXferSize = 0
  := by
  apply h.before
  · rwa [hstate]
  · rwa [hstate]

/-- A reply while the file is read. -/
theorem inv_readReq {s : Session} {p : Received} (hinv : Inv files s)
    (hstate : s.client.nfsState = .readReq) (hdest : p.dest = s.client.nfsOurPort)
    (hanswers : Answers s.client p)
    (hverifier : replyRstatus p.pkt = 0 → replyAstatus p.pkt = 0 → replyData p.pkt 0 = 0 →
      replyVerifier p.pkt = 0)
    (hhonest : Honest files s (.receive p)) :
  Inv files (s.after (nfsHandler s.client p))
  := by
  have humount : s.client.nfsState ≠ .umountReq := by
    rw [hstate]
    intro h
    cases h
  unfold nfsHandler
  rw [if_neg (not_not.mpr hdest), hstate]
  simp only
  rcases nfsReadReply_cases hinv hstate hanswers hverifier hhonest with ⟨f, hf, hreply⟩
      | ⟨rlen, hreply, hneg, hlink⟩
  · rw [hreply]
    simp only [storeBlock_snd]
    split_ifs with hpos hlink hzero
    · -- the next part
      rw [after_store]
      apply Core.send
      apply hinv.core.readOn hstate hf
    · rw [show nfserrIsdir.toInt = 21 from rfl, show nfserrInval.toInt = 22 from rfl] at hlink
      omega
    · -- the end of the file
      rw [goTo, after_store]
      apply Core.send
      apply hinv.core.finish hstate hf
      omega
    · omega
  · rw [hreply]
    simp only
    rw [if_neg (by omega)]
    split_ifs with hlink' hzero
    · -- a link, and nothing was read of it
      apply Core.send
      apply hinv.core.goOn humount (hinv.core.nothing hstate (hlink hlink'))
      · exact ⟨rfl, rfl, rfl⟩
      · intro h
        cases h
    · omega
    · apply Core.send
      apply hinv.core.giveUp humount
      · exact ⟨rfl, rfl, rfl⟩
      · rfl

/-- Nothing happens. -/
theorem after_nil (s : Session) :
  s.after (s.client, []) = s
  := by
  simp [Session.after, lastCall, stored]

/-- Nothing is sent. -/
theorem Core.inv {s : Session} (h : Core files c s.log) (hread : c.nfsState ≠ .readReq) :
  Inv files (s.after (c, []))
  := by
  constructor
  · unfold Session.after stored
    rwa [List.filterMap_nil, List.append_nil]
  · intro hread'
    apply absurd hread' hread

/-- A reply when the directory is unmounted. -/
theorem inv_umountReq {s : Session} (p : Received) (hinv : Inv files s)
    (hstate : s.client.nfsState = .umountReq) (hdest : p.dest = s.client.nfsOurPort) :
  Inv files (s.after (nfsHandler s.client p))
  := by
  have hread : s.client.nfsState ≠ .readReq := by
    rw [hstate]
    nofun
  have hdone := fun hdown => (hinv.core.done hdown).2
  unfold nfsHandler nfsUmountallReply
  rw [if_neg (not_not.mpr hdest), hstate]
  by_cases hbad : replyBad s.client p.rpcPkt
  · rw [if_pos hbad]
    simp only
    rw [if_pos (by decide)]
    apply Core.inv
    · apply core_umountReq
      · apply hstate
      · apply hdone
      · nofun
    · apply hread
  · rw [if_neg hbad]
    simp only
    rw [if_neg (by decide)]
    apply Core.inv
    · apply core_umountReq
      · rfl
      · apply hdone
      · exact id
    · nofun

/-- Before anything is read, a reply leads to another call. -/
theorem Core.goesTo {s : Session} {c' : Client} {state : State} (h : Core files s.client s.log)
    (humount : s.client.nfsState ≠ .umountReq)
    (hempty : s.log = [] ∧ s.client.netBootFileXferSize = 0) (hkeeps : Keeps s.client c')
    (hread : state ≠ .readReq) :
  Inv files (s.after (goTo c' state))
  := by
  apply Core.send
  apply h.goOn humount hempty
  · exact ⟨hkeeps.1, hkeeps.2, hkeeps.3⟩
  · apply hread

/-- A reply before anything is read. -/
theorem inv_before {s : Session} {p : Received} (hcore : Core files s.client s.log)
    (hread : s.client.nfsState ≠ .readReq) (humount : s.client.nfsState ≠ .umountReq)
    (hdest : p.dest = s.client.nfsOurPort) :
  Inv files (s.after (nfsHandler s.client p))
  := by
  have hempty := hcore.before hread humount
  unfold nfsHandler
  rw [if_neg (not_not.mpr hdest)]
  split
  case h_1 => apply hcore.goesTo humount hempty (keeps_rpcLookupReply s.client _ p) (by nofun)
  case h_2 => apply hcore.goesTo humount hempty (keeps_rpcLookupReply s.client _ p) (by nofun)
  case h_3 =>
    have hkeeps := keeps_nfsMountReply s.client p
    simp only
    split_ifs
    · apply hcore.goesTo humount hempty hkeeps (by nofun)
    · apply hcore.goesTo humount hempty hkeeps (by nofun)
  case h_4 hstate => apply absurd hstate humount
  case h_5 =>
    have hkeeps := keeps_nfsLookupReply s.client p
    simp only
    split_ifs
    · apply hcore.goesTo humount hempty hkeeps (by nofun)
    · apply Core.send
      apply hcore.found humount hempty
      · exact ⟨hkeeps.1, hkeeps.2, hkeeps.3⟩
      · rfl
      · rfl
      · rfl
  case h_6 =>
    have hkeeps := keeps_nfsReadlinkReply s.client p
    simp only
    split_ifs
    · apply hcore.goesTo humount hempty hkeeps (by nofun)
    · apply hcore.goesTo humount hempty _ (by nofun)
      exact ⟨hkeeps.1, hkeeps.2, hkeeps.3⟩
  case h_7 hstate => apply absurd hstate hread

/-- A packet for the client. -/
theorem inv_nfsHandler {s : Session} {p : Received} (hinv : Inv files s)
    (hlisten : s.client.listening = true) (hmeets : Meets s (.receive p))
    (hhonest : Honest files s (.receive p)) :
  Inv files (s.after (nfsHandler s.client p))
  := by
  by_cases hdest : p.dest = s.client.nfsOurPort
  case neg =>
    unfold nfsHandler
    rwa [if_pos hdest, after_nil]
  obtain ⟨hanswers, -, hverifier⟩ := hmeets hlisten hdest
  by_cases hread : s.client.nfsState = .readReq
  · apply inv_readReq hinv hread hdest hanswers (hverifier hread) hhonest
  by_cases humount : s.client.nfsState = .umountReq
  · apply inv_umountReq p hinv humount hdest
  apply inv_before hinv.core hread humount hdest

/-- The time is up. -/
theorem inv_nfsTimeout {s : Session} (hinv : Inv files s) :
  Inv files (s.after (nfsTimeout s.client))
  := by
  unfold nfsTimeout
  simp only
  split_ifs
  · -- nothing is sent any more, and the client does not listen
    constructor
    · have hcore := hinv.core.setId s.client.rpcId (s.client.nfsTimeoutCount + 1) false
      simpa [Session.after, stored] using hcore
    · apply hinv.last
  · apply Core.send
    apply hinv.core.setId

/-- One event. -/
theorem inv_step {s : Session} {e : Event} (hinv : Inv files s)
    (hmeets : Meets s e ∧ Honest files s e) :
  ∃ s', s.step e = some s' ∧ Inv files s'
  := by
  refine ⟨_, rfl, ?_⟩
  cases e with
  | receive p =>
    unfold react
    split_ifs with hlisten
    · apply inv_nfsHandler hinv hlisten hmeets.1 hmeets.2
    · rwa [after_nil]
  | timeout =>
    unfold react
    split_ifs
    · apply inv_nfsTimeout hinv
    · rwa [after_nil]

/-- When the client starts. -/
theorem inv_start (files : List Byte → Option File) (c : Client) (path : List Byte) :
  Inv files (Session.start c path)
  := by
  apply Core.send
  constructor
  case before => exact fun _ _ => ⟨rfl, rfl⟩
  all_goals nofun

/-- A packet that is not for the client changes nothing. -/
theorem react_of_not_answers {s : Session} {p : Received} (hmeets : Meets s (.receive p))
    (hother : ¬ Answers s.client p) :
  react s.client (.receive p) = (s.client, [])
  := by
  rw [react]
  split_ifs with hlisten
  · rw [nfsHandler, if_pos]
    intro hdest
    apply hother (hmeets hlisten hdest).1
  · rfl

/-- **The NFS client.**  In every run whose packets meet the condition, a packet that is no reply
to the last call changes nothing, and after a success the file is in memory, and each of its bytes
was stored once, in order. -/
theorem nfs_sound (files : List Byte → Option File) (c : Client) (path : List Byte)
    (es : List Event) (e : Event)
    (hmeets : Run.Along Session.step (fun s e => Meets s e ∧ Honest files s e)
      (Session.start c path) (es ++ [e])) :
  ∃ s, Run.exec Session.step (Session.start c path) es = some s ∧ Sound files s e
  := by
  obtain ⟨s, hs, hinv⟩ := Run.exec_invariant (fun _ _ => inv_step) (inv_start files c path)
    hmeets.of_append
  obtain ⟨hlast, -⟩ := hmeets.last hs
  refine ⟨s, hs, ?_, ?_⟩
  · rintro p rfl hother
    apply react_of_not_answers hlast hother
  · intro hnet
    apply (hinv.core.done (hinv.core.net hnet)).2

/-! ### A transfer of one byte -/

/-- The arguments of a read can be read back. -/
theorem readArgs_injective {id offset offset' len len' : Word} {fh fh' : List Byte}
    (h : rpcCall id progNfs nfsRead (readArgs fh offset len)
      = rpcCall id progNfs nfsRead (readArgs fh' offset' len')) :
  fh = fh' ∧ offset = offset' ∧ len = len'
  := by
  have hargs := List.append_cancel_left h
  unfold readArgs at hargs
  obtain ⟨hargs, -⟩ := List.append_inj' hargs rfl
  obtain ⟨hargs, hlen⟩ := List.append_inj' hargs rfl
  obtain ⟨hargs, hoffset⟩ := List.append_inj' hargs rfl
  refine ⟨List.append_cancel_left hargs, ?_, ?_⟩
  · rw [← bytesWord_wordBytes offset, hoffset, bytesWord_wordBytes]
  · rw [← bytesWord_wordBytes len, hlen, bytesWord_wordBytes]

/-- Every server is honest when nothing is read. -/
theorem honest_of_proc {s : Session} (p : Received)
    (h : (s.last.drop 20).take 4 ≠ wordBytes nfsRead) :
  Honest files s (.receive p)
  := by
  intro fh offset len hlast
  apply absurd _ h
  rw [hlast]
  rfl

/-- What an honest server sends of a file. -/
theorem honest_of_read {s : Session} {p : Received} {f : File} (fh : List Byte) (offset : Word)
    (hf : files fh = some f)
    (hlast : s.last = rpcCall s.client.rpcId progNfs nfsRead (readArgs fh offset nfsReadSize))
    (hstatus : replyData p.pkt 0 = 0)
    (hlen : (replyData p.pkt 18).toNat = (part f offset).length)
    (hholds : Memory.Holds p.pkt replySize (part f offset)) :
  Honest files s (.receive p)
  := by
  intro fh' offset' len' hlast' _ _ _
  obtain ⟨rfl, rfl, rfl⟩ := readArgs_injective (hlast.symm.trans hlast')
  refine ⟨fun _ => ⟨f, hf, hlen, hholds⟩, ?_, ?_⟩
  · rw [hstatus]
    intro h
    apply absurd h
    decide
  · rw [hstatus]
    decide

/-- A file of one byte. -/
def oneByte : File := ⟨[0x42], by decide⟩

/-- A reply that has all the bytes of its data does no harm, unless it is a link. -/
theorem harmless_replyPkt {c : Client} {id : Word} {result : List Word} {data : List Byte}
    (hstate : c.nfsState ≠ .readlinkReq) (hlen : data.length ≤ 1948)
    (hdata : (replyData (replyPkt id result data).pkt 18).toNat ≤ data.length) :
  Harmless c (replyPkt id result data)
  := by
  have hle : (replyPkt id result data).len ≤ 2048 := by
    show 100 + data.length ≤ 2048
    omega
  have hhandle : 28 + nfsFhsize ≤ (replyPkt id result data).len := by
    show 28 + 32 ≤ 100 + data.length
    omega
  intro _
  split
  case h_1 => exact ⟨hle, fun _ => hhandle⟩
  case h_2 => exact ⟨hle, fun _ => hhandle⟩
  case h_3 hlink => apply absurd hlink hstate
  case h_4 => exact ⟨Nat.le_add_right 100 _, fun _ => Nat.add_le_add_left hdata 100⟩
  case h_5 => exact hle

/-- The client may be given such a reply to its last call. -/
theorem meets_replyPkt {s : Session} {id : Word} {result : List Word} {data : List Byte}
    (hanswers : Answers s.client (replyPkt id result data))
    (hstate : s.client.nfsState ≠ .readlinkReq) (hlen : data.length ≤ 1948)
    (hdata : (replyData (replyPkt id result data).pkt 18).toNat ≤ data.length)
    (hverifier : replyVerifier (replyPkt id result data).pkt = 0) :
  Meets s (.receive (replyPkt id result data))
  := by
  intro _ _
  have hfits := (harmless_iff _ _).mp (harmless_replyPkt hstate hlen hdata)
  exact ⟨hanswers, fun w hw => (hfits w hw).2, fun _ _ _ _ => hverifier⟩

/-- A reply to any call but that of a read. -/
theorem meets_honest_replyPkt {s : Session} {id : Word} {result : List Word}
    (hanswers : Answers s.client (replyPkt id result []))
    (hstate : s.client.nfsState ≠ .readlinkReq)
    (hdata : (replyData (replyPkt id result []).pkt 18).toNat ≤ 0)
    (hverifier : replyVerifier (replyPkt id result []).pkt = 0)
    (hproc : (s.last.drop 20).take 4 ≠ wordBytes nfsRead) :
  Meets s (.receive (replyPkt id result []))
    ∧ Honest files s (.receive (replyPkt id result []))
  := ⟨meets_replyPkt hanswers hstate (by decide) hdata hverifier, honest_of_proc _ hproc⟩

/-- The replies are the ones of an honest server. -/
theorem along_transfer :
  Run.Along Session.step (fun s e => Meets s e ∧ Honest (fun _ => some oneByte) s e)
    (Session.start newClient [slash]) (transfer ++ [.timeout])
  := by
  refine Run.Along.cons ?_ rfl ?_
  · apply meets_honest_replyPkt <;> decide +kernel
  refine Run.Along.cons ?_ rfl ?_
  · apply meets_honest_replyPkt <;> decide +kernel
  refine Run.Along.cons ?_ rfl ?_
  · apply meets_honest_replyPkt <;> decide +kernel
  refine Run.Along.cons ?_ rfl ?_
  · apply meets_honest_replyPkt <;> decide +kernel
  refine Run.Along.cons ⟨?_, honest_of_read (List.replicate 32 0) 0 rfl
    (by decide +kernel) (by decide +kernel) ?_ ?_⟩ rfl ?_
  · apply meets_replyPkt <;> decide +kernel
  · decide +kernel
  · exact ⟨by decide +kernel, trivial⟩
  refine Run.Along.cons ⟨?_, honest_of_read (List.replicate 32 0) 1 rfl
    (by decide +kernel) (by decide +kernel) ?_ ?_⟩ rfl ?_
  · apply meets_replyPkt <;> decide +kernel
  · decide +kernel
  · trivial
  refine Run.Along.cons ?_ rfl ?_
  · apply meets_honest_replyPkt <;> decide +kernel
  apply Run.Along.cons ⟨trivial, trivial⟩ rfl
  trivial

/-- The byte is loaded. -/
theorem nfs_sound_oneByte :
  ∃ s, Run.exec Session.step (Session.start newClient [slash]) transfer = some s
    ∧ Sound (fun _ => some oneByte) s .timeout
  := nfs_sound (fun _ => some oneByte) newClient [slash] transfer .timeout along_transfer

/-- A reply to no call is taken for the answer. -/
theorem nfs_goes_on_after_stale :
  ¬ ∀ (files : List Byte → Option File) (c : Client) (path : List Byte) (es : List Event)
    (e : Event), Run.Along Session.step (Honest files) (Session.start c path) (es ++ [e]) →
    ∃ s, Run.exec Session.step (Session.start c path) es = some s ∧ Sound files s e
  := by
  intro h
  obtain ⟨s, hs, hsound⟩ := h (fun _ => none) newClient [slash] [] (.receive (replyPkt 0 [] []))
    ⟨honest_of_proc _ (by decide +kernel), fun _ _ => trivial⟩
  obtain rfl := Option.some.inj hs
  have hsame := hsound.1 _ rfl (by decide +kernel)
  have hstate := congrArg (fun r : Client × List Action => r.1.nfsState) hsame
  revert hstate
  decide +kernel

end Nfs
