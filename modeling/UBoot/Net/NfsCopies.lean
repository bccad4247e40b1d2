import Mathlib.Data.List.TakeWhile
import UBoot.Lib.Run
import UBoot.Net.Nfs

/-!
# What the NFS client copies

The functions that look at a reply copy it to `rpc_pkt`, and from there to the file handles and to
the path; a piece of the file is stored from the packet itself.  The lengths that they use are not
compared with anything.  The theorem says for which replies this does no harm.
-/

namespace Nfs

/-! ### Copies -/

/-- What is written to. -/
inductive Buffer where
  | rpcPkt
  | dirfh
  | filefh
  | nfsPathBuff
  | loadAddr
deriving DecidableEq

/-- The size of a buffer; a file may be loaded to any address. -/
def Buffer.size : Buffer → Option ℕ
  | .rpcPkt => some 2048
  | .dirfh => some nfsFhsize
  | .filefh => some nfsFhsize
  | .nfsPathBuff => some 2048
  | .loadAddr => none

/-- Bytes that are written to a buffer, and the offset in the packet from which they are copied,
unless they are constant. -/
structure Copy where
  buffer : Buffer
  offset : ℤ
  bytes : List Byte
  source : Option ℕ

/-- What is written lies inside the buffer. -/
def Copy.InBounds (w : Copy) : Prop :=
  ∀ size ∈ w.buffer.size, 0 ≤ w.offset ∧ w.offset + w.bytes.length ≤ size

/-- What is copied lies inside a packet of the given length. -/
def Copy.InPacket (w : Copy) (len : ℕ) : Prop := ∀ a ∈ w.source, a + w.bytes.length ≤ len

/-- The buffers after a copy that lies inside of one. -/
def Copy.perform (m : Buffer → ℕ → Byte) (w : Copy) : Buffer → ℕ → Byte :=
  Function.update m w.buffer (Memory.store (m w.buffer) w.offset.toNat w.bytes)

/-- The buffers after several copies. -/
def performAll (m : Buffer → ℕ → Byte) (ws : List Copy) : Buffer → ℕ → Byte :=
  ws.foldl Copy.perform m

/-- `memcpy ((unsigned char *)&rpc_pkt, pkt, len)`. -/
def copyPacket (p : Received) (len : ℕ) : Copy := ⟨.rpcPkt, 0, Memory.read p.pkt 0 len, some 0⟩

/-- A reply with the id of the last call that says that the call has been successful. -/
def Accepted (c : Client) (m : ℕ → Byte) : Prop := ¬ (replyBad c m ∨ replyData m 0 ≠ 0)

instance (c : Client) (m : ℕ → Byte) : Decidable (Accepted c m) :=
  inferInstanceAs (Decidable (¬ _))

/-- What `nfs_mount_reply` and `nfs_lookup_reply` copy to a file handle. -/
def copyHandle (c : Client) (p : Received) (buffer : Buffer) : List Copy :=
  if Accepted c p.rpcPkt then [⟨buffer, 0, Memory.read p.rpcPkt 28 nfsFhsize, some 28⟩] else []

/-- `rlen` in `nfs_readlink_reply`. -/
def pathRlen (p : Received) : Word := replyData p.rpcPkt 1

/-- What `nfs_readlink_reply` copies to the path: `memcpy` takes `rlen` for an unsigned number. -/
def copyPath (c : Client) (p : Received) : List Copy :=
  if Accepted c p.rpcPkt then
    let rlen := pathRlen p
    let target := Memory.read p.rpcPkt 32 rlen.toNat
    if p.rpcPkt 32 ≠ slash then
      let pathlen := c.nfsPath.length + 1
      [⟨.nfsPathBuff, c.nfsPath.length, [slash, 0], none⟩,
        ⟨.nfsPathBuff, pathlen, target, some 32⟩,
        ⟨.nfsPathBuff, pathlen + rlen.toInt, [0], none⟩]
    else [⟨.nfsPathBuff, 0, target, some 32⟩, ⟨.nfsPathBuff, rlen.toInt, [0], none⟩]
  else []

/-- What `nfs_read_reply` stores: `store_block` takes `rlen` for an unsigned number. -/
def copyFile (c : Client) (p : Received) : List Copy :=
  if Accepted c p.pkt then
    [⟨.loadAddr, c.nfsOffset.toNat, Memory.read p.pkt replySize (replyData p.pkt 18).toNat,
      some replySize⟩]
  else []

/-- What is copied from a reply. -/
def copies (c : Client) (p : Received) : List Copy :=
  if p.dest ≠ c.nfsOurPort then []
  else
    match c.nfsState with
    | .prclookupProgMountReq => [copyPacket p p.len]
    | .prclookupProgNfsReq => [copyPacket p p.len]
    | .mountReq => copyPacket p p.len :: copyHandle c p .dirfh
    | .umountReq =>
      copyPacket p p.len :: (if replyBad c p.rpcPkt then []
        else [⟨.dirfh, 0, List.replicate nfsFhsize 0, none⟩])
    | .lookupReq => copyPacket p p.len :: copyHandle c p .filefh
    | .readlinkReq => copyPacket p p.len :: copyPath c p
    | .readReq => copyPacket p replySize :: copyFile c p

/-- The client when the reply has been looked at. -/
def parsed (c : Client) (p : Received) : Client :=
  if p.dest ≠ c.nfsOurPort then c
  else
    match c.nfsState with
    | .prclookupProgMountReq => (rpcLookupReply c progMount p).1
    | .prclookupProgNfsReq => (rpcLookupReply c progNfs p).1
    | .mountReq => (nfsMountReply c p).1
    | .umountReq => (nfsUmountallReply c p).1
    | .lookupReq => (nfsLookupReply c p).1
    | .readlinkReq => (nfsReadlinkReply c p).1
    | .readReq => (nfsReadReply c p).1.1

/-! ### What a reply may do -/

/-- The path is a string that fits into its buffer. -/
structure PathFits (c : Client) : Prop where
  zero_notMem : 0 ∉ c.nfsPath
  length_lt : c.nfsPath.length < 2048

/-- The buffers contain the variables of the client. -/
structure Represents (m : Buffer → ℕ → Byte) (c : Client) : Prop where
  fits : PathFits c
  nfsPath : Memory.Holds (m .nfsPathBuff) 0 (c.nfsPath ++ [0])
  dirfh : Memory.Holds (m .dirfh) 0 c.dirfh
  filefh : Memory.Holds (m .filefh) 0 c.filefh

/-- Only the packet is copied, and only to the buffers; the path and the file handles are then in
their buffers, and what is stored has been received after the header. -/
structure Copies (c : Client) (p : Received) : Prop where
  inPacket : ∀ w ∈ copies c p, w.InPacket p.len
  inBounds : ∀ w ∈ copies c p, w.InBounds
  represents : ∀ m, Represents m c → Represents (performAll m (copies c p)) (parsed c p)
  stored : ∀ piece ∈ stored (nfsHandler c p).2, replySize + piece.2.length ≤ p.len

/-- The replies that do no harm. -/
def Harmless (c : Client) (p : Received) : Prop :=
  p.dest = c.nfsOurPort →
    match c.nfsState with
    | .mountReq => p.len ≤ 2048 ∧ (Accepted c p.rpcPkt → 28 + nfsFhsize ≤ p.len)
    | .lookupReq => p.len ≤ 2048 ∧ (Accepted c p.rpcPkt → 28 + nfsFhsize ≤ p.len)
    | .readlinkReq => p.len ≤ 2048 ∧ (Accepted c p.rpcPkt → 32 + (pathRlen p).toNat ≤ p.len
      ∧ (p.rpcPkt 32 ≠ slash → c.nfsPath.length + (pathRlen p).toNat + 2 ≤ 2048))
    | .readReq => replySize ≤ p.len
      ∧ (Accepted c p.pkt → replySize + (replyData p.pkt 18).toNat ≤ p.len)
    | _ => p.len ≤ 2048

/-! ### Single copies -/

@[simp]
theorem inPacket_some (buffer : Buffer) (offset : ℤ) (bytes : List Byte) (a len : ℕ) :
  (Copy.mk buffer offset bytes (some a)).InPacket len ↔ a + bytes.length ≤ len
  := by
  simp [Copy.InPacket]

@[simp]
theorem inPacket_none (buffer : Buffer) (offset : ℤ) (bytes : List Byte) (len : ℕ) :
  (Copy.mk buffer offset bytes none).InPacket len
  := by
  simp [Copy.InPacket]

/-- A buffer of a known size. -/
theorem inBounds_iff {buffer : Buffer} {size : ℕ} (h : buffer.size = some size) (offset : ℤ)
    (bytes : List Byte) (source : Option ℕ) :
  (Copy.mk buffer offset bytes source).InBounds ↔ 0 ≤ offset ∧ offset + bytes.length ≤ size
  := by
  simp [Copy.InBounds, h]

@[simp]
theorem inBounds_loadAddr (offset : ℤ) (bytes : List Byte) (source : Option ℕ) :
  (Copy.mk .loadAddr offset bytes source).InBounds
  := by
  simp [Copy.InBounds, Buffer.size]

/-- Copies that are made one after the other do no harm. -/
def AllFit (ws : List Copy) (len : ℕ) : Prop := ∀ w ∈ ws, w.InPacket len ∧ w.InBounds

theorem allFit_nil (len : ℕ) :
  AllFit [] len
  := nofun

theorem allFit_cons {w : Copy} {ws : List Copy} {len : ℕ} :
  AllFit (w :: ws) len ↔ (w.InPacket len ∧ w.InBounds) ∧ AllFit ws len
  := List.forall_mem_cons

/-- A packet is copied well if it is not longer than `rpc_pkt`. -/
theorem copyPacket_iff (p : Received) (len : ℕ) :
  (copyPacket p len).InPacket p.len ∧ (copyPacket p len).InBounds ↔ len ≤ p.len ∧ len ≤ 2048
  := by
  have hbounds : (copyPacket p len).InBounds ↔ len ≤ 2048 := by
    rw [copyPacket, inBounds_iff (show Buffer.rpcPkt.size = some 2048 from rfl),
      Memory.length_read]
    omega
  rw [hbounds, copyPacket, inPacket_some, Memory.length_read, Nat.zero_add]

/-- A file handle is copied well if it is in the packet. -/
theorem copyHandle_iff (c : Client) (p : Received) {buffer : Buffer}
    (hsize : buffer.size = some nfsFhsize) :
  AllFit (copyHandle c p buffer) p.len ↔ (Accepted c p.rpcPkt → 28 + nfsFhsize ≤ p.len)
  := by
  unfold copyHandle
  split_ifs with h
  · rw [allFit_cons, inPacket_some, inBounds_iff hsize, Memory.length_read]
    simp [allFit_nil, h]
  · simp [allFit_nil, h]

/-- A target is copied well if it is in the packet and fits behind the path. -/
theorem copyPath_iff (c : Client) (p : Received) (hlen : p.len ≤ 2048) :
  AllFit (copyPath c p) p.len ↔ (Accepted c p.rpcPkt → 32 + (pathRlen p).toNat ≤ p.len
    ∧ (p.rpcPkt 32 ≠ slash → c.nfsPath.length + (pathRlen p).toNat + 2 ≤ 2048))
  := by
  have hint : (pathRlen p).toNat < 2 ^ 31 → (pathRlen p).toInt = (pathRlen p).toNat := by
    intro h
    rw [BitVec.toInt_eq_toNat_of_lt (by omega)]
  have hsize : Buffer.nfsPathBuff.size = some 2048 := rfl
  unfold copyPath
  split_ifs with h hslash
  · -- the target is appended to the path
    simp only [allFit_cons, inPacket_some, inPacket_none, inBounds_iff hsize, allFit_nil,
      Memory.length_read, List.length_cons, List.length_nil, h, hslash, true_imp_iff, ne_eq,
      not_false_eq_true, true_and, and_true]
    constructor
    · omega
    · rintro ⟨hin, hfits⟩
      rw [hint (by omega)]
      omega
  · -- the target replaces the path
    simp only [allFit_cons, inPacket_some, inPacket_none, inBounds_iff hsize, allFit_nil,
      Memory.length_read, List.length_cons, List.length_nil, h, hslash, true_imp_iff,
      false_imp_iff, true_and, and_true]
    constructor
    · omega
    · intro hin
      rw [hint (by omega)]
      omega
  · simp [allFit_nil, h]

/-- A piece of the file is copied well if it is in the packet. -/
theorem copyFile_iff (c : Client) (p : Received) :
  AllFit (copyFile c p) p.len
    ↔ (Accepted c p.pkt → replySize + (replyData p.pkt 18).toNat ≤ p.len)
  := by
  unfold copyFile
  split_ifs with h
  · rw [allFit_cons, inPacket_some, Memory.length_read]
    simp [allFit_nil, h]
  · simp [allFit_nil, h]

/-- A reply does no harm if all that is copied is copied well. -/
theorem harmless_iff (c : Client) (p : Received) :
  Harmless c p ↔ AllFit (copies c p) p.len
  := by
  unfold Harmless copies
  by_cases hdest : p.dest = c.nfsOurPort
  case neg => simp [hdest, allFit_nil]
  rw [if_neg (not_not.mpr hdest)]
  have hpacket := copyPacket_iff p p.len
  have hone : AllFit [copyPacket p p.len] p.len ↔ p.len ≤ 2048 := by
    simp [allFit_cons, allFit_nil, hpacket]
  cases c.nfsState
  case prclookupProgMountReq => simp [hdest, hone]
  case prclookupProgNfsReq => simp [hdest, hone]
  case mountReq =>
    have hhandle := copyHandle_iff c p (show Buffer.dirfh.size = _ from rfl)
    simp [hdest, allFit_cons, hpacket, hhandle]
  case umountReq =>
    simp only [hdest, true_imp_iff, allFit_cons, hpacket, le_refl, true_and]
    split_ifs with h
    · simp [allFit_nil]
    · simp [allFit_nil, allFit_cons, inBounds_iff (show Buffer.dirfh.size = _ from rfl)]
  case lookupReq =>
    have hhandle := copyHandle_iff c p (show Buffer.filefh.size = _ from rfl)
    simp [hdest, allFit_cons, hpacket, hhandle]
  case readlinkReq =>
    simp only [hdest, true_imp_iff, allFit_cons, hpacket, le_refl, true_and]
    apply and_congr_right
    intro hlen
    rw [copyPath_iff c p hlen]
  case readReq =>
    simp only [hdest, true_imp_iff, allFit_cons, copyPacket_iff, copyFile_iff]
    simp [replySize]

/-! ### What is stored -/

theorem stored_append (actions actions' : List Action) :
  stored (actions ++ actions') = stored actions ++ stored actions'
  := List.filterMap_append

theorem stored_nfsSend (c : Client) :
  stored (nfsSend c).2 = []
  := by
  obtain ⟨_, _, h⟩ := nfsSend_eq c
  apply h

/-- What `nfs_read_reply` stores is copied from the packet. -/
theorem stored_nfsReadReply {c : Client} {p : Received} {piece : Word × List Byte}
    (h : piece ∈ stored (nfsReadReply c p).1.2) :
  ⟨.loadAddr, piece.1.toNat, piece.2, some replySize⟩ ∈ copyFile c p
  := by
  unfold nfsReadReply at h
  by_cases haccepted : Accepted c p.pkt
  · have hid : ¬ replyId p.pkt ≠ c.rpcId := fun hid => haccepted (.inl (.inl hid))
    rw [if_neg hid, if_neg haccepted] at h
    obtain rfl : piece = _ := List.mem_singleton.mp h
    rw [copyFile, if_pos haccepted]
    apply List.mem_singleton_self
  · rw [Accepted, not_not] at haccepted
    rw [if_pos haccepted] at h
    split_ifs at h
    all_goals cases h

/-- What the handler stores is copied from the packet. -/
theorem stored_nfsHandler {c : Client} {p : Received} {piece : Word × List Byte}
    (h : piece ∈ stored (nfsHandler c p).2) :
  ⟨.loadAddr, piece.1.toNat, piece.2, some replySize⟩ ∈ copies c p
  := by
  unfold nfsHandler at h
  unfold copies
  by_cases hdest : p.dest ≠ c.nfsOurPort
  · rw [if_pos hdest] at h
    cases h
  rw [if_neg hdest] at h ⊢
  cases hstate : c.nfsState
  all_goals simp only [hstate, goTo] at h
  case readReq =>
    apply List.mem_cons_of_mem
    apply stored_nfsReadReply
    rw [stored_append] at h
    split_ifs at h
    all_goals rwa [stored_nfsSend, List.append_nil] at h
  all_goals
    try split_ifs at h
    all_goals
      try rw [stored_nfsSend] at h
      cases h

/-! ### What the buffers contain -/

variable {m : Buffer → ℕ → Byte} {c c' : Client}

/-- A copy to another buffer. -/
theorem Represents.perform_of_other (h : Represents m c) {w : Copy}
    (hw : w.buffer = .rpcPkt ∨ w.buffer = .loadAddr) :
  Represents (w.perform m) c
  := by
  have hne {b : Buffer} (hb : b ≠ .rpcPkt) (hb' : b ≠ .loadAddr) : w.perform m b = m b := by
    apply Function.update_of_ne
    rintro rfl
    rcases hw with hw | hw
    · apply hb hw
    · apply hb' hw
  constructor
  case fits => apply h.fits
  case nfsPath =>
    rw [hne (b := .nfsPathBuff) nofun nofun]
    apply h.nfsPath
  case dirfh =>
    rw [hne (b := .dirfh) nofun nofun]
    apply h.dirfh
  case filefh =>
    rw [hne (b := .filefh) nofun nofun]
    apply h.filefh

/-- A client with the same path and the same file handles. -/
theorem Represents.congr (h : Represents m c) (hpath : c'.nfsPath = c.nfsPath)
    (hdir : c'.dirfh = c.dirfh) (hfile : c'.filefh = c.filefh) :
  Represents m c'
  := by
  constructor
  case fits =>
    constructor
    · rw [hpath]
      apply h.fits.zero_notMem
    · rw [hpath]
      apply h.fits.length_lt
  case nfsPath =>
    rw [hpath]
    apply h.nfsPath
  case dirfh =>
    rw [hdir]
    apply h.dirfh
  case filefh =>
    rw [hfile]
    apply h.filefh

/-- The handle of the directory is replaced. -/
theorem Represents.perform_dirfh (h : Represents m c) (bytes : List Byte) (source : Option ℕ) :
  Represents (Copy.perform m ⟨.dirfh, 0, bytes, source⟩) { c with dirfh := bytes }
  := by
  constructor
  case fits => exact ⟨h.fits.zero_notMem, h.fits.length_lt⟩
  case nfsPath => apply h.nfsPath
  case dirfh => apply Memory.holds_store
  case filefh => apply h.filefh

/-- The handle of the file is replaced. -/
theorem Represents.perform_filefh (h : Represents m c) (bytes : List Byte) (source : Option ℕ) :
  Represents (Copy.perform m ⟨.filefh, 0, bytes, source⟩) { c with filefh := bytes }
  := by
  constructor
  case fits => exact ⟨h.fits.zero_notMem, h.fits.length_lt⟩
  case nfsPath => apply h.nfsPath
  case dirfh => apply h.dirfh
  case filefh => apply Memory.holds_store

theorem exists_takeWhile_append (path : List Byte) :
  ∃ rest, path ++ [0] = path.takeWhile (· ≠ 0) ++ [0] ++ rest
  := by
  induction path with
  | nil => exact ⟨[], rfl⟩
  | cons b path ih =>
    by_cases hb : b = 0
    · use path ++ [0]
      simp [hb]
    · obtain ⟨rest, hrest⟩ := ih
      use rest
      rw [List.cons_append, hrest, List.takeWhile_cons_of_pos (by simpa using hb)]
      rfl

/-- A path in its buffer ends at the first zero. -/
theorem holds_takeWhile {m : ℕ → Byte} {path : List Byte} (h : Memory.Holds m 0 (path ++ [0])) :
  Memory.Holds m 0 (path.takeWhile (· ≠ 0) ++ [0])
  := by
  obtain ⟨rest, hrest⟩ := exists_takeWhile_append path
  rw [hrest, Memory.holds_append] at h
  apply h.1

/-- What is in a buffer is extended by what is written behind it. -/
theorem holds_perform {buffer : Buffer} {bytes : List Byte} (h : Memory.Holds (m buffer) 0 bytes)
    {offset : ℤ} (hoffset : offset = bytes.length) (bytes' : List Byte) (source : Option ℕ) :
  Memory.Holds (Copy.perform m ⟨buffer, offset, bytes', source⟩ buffer) 0 (bytes ++ bytes')
  := by
  rw [Copy.perform, Function.update_self, hoffset]
  apply h.store_append
  rw [Int.toNat_natCast, Nat.zero_add]

/-- The path that `nfs_readlink_reply` builds. -/
def linkPath (c : Client) (p : Received) : List Byte :=
  let target := Memory.read p.rpcPkt 32 (pathRlen p).toNat
  if p.rpcPkt 32 ≠ slash then c.nfsPath ++ [slash] ++ target else target

/-- The path is in its buffer. -/
theorem holds_linkPath (h : Represents m c) {p : Received} (haccepted : Accepted c p.rpcPkt)
    (hrlen : (pathRlen p).toInt = (pathRlen p).toNat) :
  Memory.Holds (performAll m (copyPath c p) .nfsPathBuff) 0 (linkPath c p ++ [0])
  := by
  unfold copyPath linkPath
  rw [if_pos haccepted]
  have hlen := Memory.length_read p.rpcPkt 32 (pathRlen p).toNat
  simp only
  split_ifs with hslash
  all_goals simp only [performAll, List.foldl_cons, List.foldl_nil]
  · -- `strcat` replaces the zero at the end of the path
    have hcat := holds_perform (Memory.holds_append.mp h.nfsPath).1 rfl [slash, 0] none
    rw [List.append_cons] at hcat
    apply holds_perform
    · apply holds_perform (Memory.holds_append.mp hcat).1
      simp
    · simp [hrlen, hlen]
      omega
  · apply holds_perform
    · rw [← List.nil_append (Memory.read _ _ _)]
      apply holds_perform (Memory.holds_nil _ 0)
      rfl
    · rw [hrlen, hlen]

/-- What `nfs_readlink_reply` does, as a whole. -/
theorem nfsReadlinkReply_fst (c : Client) (p : Received) :
  (nfsReadlinkReply c p).1
    = if Accepted c p.rpcPkt then { c with nfsPath := (linkPath c p).takeWhile (· ≠ 0) } else c
  := by
  unfold nfsReadlinkReply
  by_cases h : Accepted c p.rpcPkt
  · rw [if_pos h, if_neg h]
    rfl
  · rw [if_neg h, if_pos (not_not.mp h)]

/-- Copies to other buffers. -/
theorem performAll_of_ne {ws : List Copy} {buffer : Buffer} (h : ∀ w ∈ ws, w.buffer ≠ buffer) :
  performAll m ws buffer = m buffer
  := by
  induction ws generalizing m with
  | nil => rfl
  | cons w ws ih =>
    rw [List.forall_mem_cons] at h
    rw [performAll, List.foldl_cons]
    apply (ih h.2).trans
    apply Function.update_of_ne
    apply h.1.symm

theorem buffer_of_mem_copyPath {p : Received} {w : Copy} (h : w ∈ copyPath c p) :
  w.buffer = .nfsPathBuff
  := by
  unfold copyPath at h
  simp only at h
  split_ifs at h
  all_goals
    simp only [List.mem_cons, List.not_mem_nil, or_false] at h
    try rcases h with rfl | rfl | rfl
    try rcases h with rfl | rfl
    all_goals rfl

/-- The path after a link that does no harm is a string that fits. -/
theorem pathFits_linkPath {p : Received} (hlen : p.len ≤ 2048)
    (hin : 32 + (pathRlen p).toNat ≤ p.len)
    (hfits : p.rpcPkt 32 ≠ slash → c.nfsPath.length + (pathRlen p).toNat + 2 ≤ 2048) :
  PathFits { c with nfsPath := (linkPath c p).takeWhile (· ≠ 0) }
  := by
  constructor
  · intro hzero
    simpa using List.mem_takeWhile_imp hzero
  · apply (List.takeWhile_sublist _).length_le.trans_lt
    unfold linkPath
    simp only
    split_ifs with hslash
    · have := hfits hslash
      rw [List.length_append, List.length_append, Memory.length_read, List.length_singleton]
      omega
    · rw [Memory.length_read]
      omega

/-- The path and its buffer after a link that does no harm. -/
theorem Represents.copyPath (h : Represents m c) {p : Received} (hlen : p.len ≤ 2048)
    (hlink : Accepted c p.rpcPkt → 32 + (pathRlen p).toNat ≤ p.len
      ∧ (p.rpcPkt 32 ≠ slash → c.nfsPath.length + (pathRlen p).toNat + 2 ≤ 2048)) :
  Represents (performAll m (Nfs.copyPath c p)) (nfsReadlinkReply c p).1
  := by
  rw [nfsReadlinkReply_fst]
  split_ifs with haccepted
  · obtain ⟨hin, hfits⟩ := hlink haccepted
    have hother {b : Buffer} (hb : b ≠ .nfsPathBuff) :
        performAll m (Nfs.copyPath c p) b = m b := by
      apply performAll_of_ne
      intro w hw
      rw [buffer_of_mem_copyPath hw]
      apply hb.symm
    constructor
    case fits => apply pathFits_linkPath hlen hin hfits
    case nfsPath =>
      apply holds_takeWhile
      apply holds_linkPath h haccepted
      apply BitVec.toInt_eq_toNat_of_lt
      omega
    case dirfh =>
      rw [hother (b := .dirfh) nofun]
      apply h.dirfh
    case filefh =>
      rw [hother (b := .filefh) nofun]
      apply h.filefh
  · unfold Nfs.copyPath
    rw [if_neg haccepted]
    apply h

/-- The path, the file handles and their buffers after a harmless reply. -/
theorem Represents.parsed (h : Represents m c) {p : Received} (hharmless : Harmless c p) :
  Represents (performAll m (copies c p)) (Nfs.parsed c p)
  := by
  unfold copies Nfs.parsed
  by_cases hdest : p.dest = c.nfsOurPort
  case neg =>
    rw [if_pos hdest, if_pos hdest]
    apply h
  have hharmless := hharmless hdest
  rw [if_neg (not_not.mpr hdest), if_neg (not_not.mpr hdest)]
  have hpacket (n : ℕ) : Represents ((copyPacket p n).perform m) c := h.perform_of_other (.inl rfl)
  cases hstate : c.nfsState
  all_goals simp only [hstate] at hharmless
  all_goals dsimp only
  case prclookupProgMountReq =>
    apply (hpacket p.len).congr
    all_goals
      unfold rpcLookupReply
      split_ifs
      all_goals rfl
  case prclookupProgNfsReq =>
    apply (hpacket p.len).congr
    all_goals
      unfold rpcLookupReply
      split_ifs
      all_goals rfl
  case mountReq =>
    unfold copyHandle nfsMountReply
    by_cases haccepted : Accepted c p.rpcPkt
    · rw [if_pos haccepted, if_neg haccepted]
      apply ((hpacket p.len).perform_dirfh _ _).congr
      all_goals rfl
    · rw [if_neg haccepted, if_pos (not_not.mp haccepted)]
      apply hpacket
  case umountReq =>
    unfold nfsUmountallReply
    split_ifs with hbad
    · apply hpacket
    · apply ((hpacket p.len).perform_dirfh _ none).congr
      all_goals rfl
  case lookupReq =>
    unfold copyHandle nfsLookupReply
    by_cases haccepted : Accepted c p.rpcPkt
    · rw [if_pos haccepted, if_neg haccepted]
      apply ((hpacket p.len).perform_filefh _ _).congr
      all_goals rfl
    · rw [if_neg haccepted, if_pos (not_not.mp haccepted)]
      apply hpacket
  case readlinkReq => apply (hpacket p.len).copyPath hharmless.1 hharmless.2
  case readReq =>
    have hsame : Represents ((copyPacket p replySize).perform m) (nfsReadReply c p).1.1 := by
      apply (hpacket replySize).congr
      all_goals
        unfold nfsReadReply storeBlock
        split_ifs
        all_goals rfl
    unfold copyFile
    split_ifs
    · apply hsame.perform_of_other (.inr rfl)
    · apply hsame

/-! ### The replies that do no harm -/

theorem Copies.harmless {p : Received} (h : Copies c p) :
  Harmless c p
  := by
  apply (harmless_iff c p).mpr
  intro w hw
  exact ⟨h.inPacket w hw, h.inBounds w hw⟩

/-- A reply does harm in no other case than those that are listed. -/
theorem copies_iff (c : Client) (p : Received) :
  Copies c p ↔ Harmless c p
  := by
  constructor
  · apply Copies.harmless
  · intro h
    have hfit := (harmless_iff c p).mp h
    constructor
    case inPacket =>
      intro w hw
      apply (hfit w hw).1
    case inBounds =>
      intro w hw
      apply (hfit w hw).2
    case represents =>
      intro m hm
      apply hm.parsed h
    case stored =>
      intro piece hpiece
      apply (hfit _ (stored_nfsHandler hpiece)).1 replySize rfl

/-- A client that has made no call. -/
def newClient : Client where
  fsMounted := false
  rpcId := 0
  nfsOffset := 0
  nfsLen := 0
  dirfh := []
  filefh := []
  nfsDownloadState := .netloopFail
  netState := .netloopContinue
  nfsSrvMountPort := -1
  nfsSrvNfsPort := -1
  nfsOurPort := 0
  nfsTimeoutCount := 0
  nfsState := .prclookupProgMountReq
  nfsPath := []
  nfsFilename := []
  pathBefore := 0
  loadAddr := 0
  mem := fun _ => 0
  netBootFileXferSize := 0
  listening := false

/-- A reply without an error: the words of its result, and the data of a file. -/
def replyPkt (id : Word) (result : List Word) (data : List Byte) : Received where
  pkt := Memory.store (Memory.store (fun _ => 0) 0
    (([id, 1, 0, 0, 0, 0] ++ result).flatMap wordBytes)) replySize data
  stack := fun _ => 0
  dest := 1000
  src := 111
  len := 100 + data.length

/-- The result of a read. -/
def readResult (n : Word) : List Word := List.replicate 18 0 ++ [n]

/-- The replies to all the calls of a transfer. -/
def transfer : List Event :=
  [.receive (replyPkt 1 [635] []), .receive (replyPkt 2 [2049] []), .receive (replyPkt 3 [0] []),
    .receive (replyPkt 4 [0] []), .receive (replyPkt 5 (readResult 1) [0x42]),
    .receive (replyPkt 6 (readResult 0) []), .receive (replyPkt 7 [] [])]

/-- One event of a client. -/
def step (c : Client) (e : Event) : Option Client := some (react c e).1

/-- The first reply may be longer than `rpc_pkt`, and a piece of a file may be shorter than it
says. -/
theorem not_copies_lengths :
  ¬ Copies (nfsStart newClient [slash]).1 ⟨fun _ => 0, fun _ => 0, 1000, 111, 2049⟩
  ∧ ∃ c, Run.exec step (nfsStart newClient [slash]).1 (transfer.take 4) = some c
    ∧ ¬ Copies c (replyPkt 5 (readResult 2) [0x42])
  := by
  constructor
  · intro h
    have hlen : 2049 ≤ 2048 := h.harmless rfl
    omega
  · refine ⟨_, rfl, ?_⟩
    intro h
    have hrlen := (h.harmless rfl).2 (by decide +kernel)
    revert hrlen
    decide +kernel

/-! ### Many links -/

theorem PathFits.of_prefix (h : PathFits c) (hpre : c'.nfsPath <+: c.nfsPath) :
  PathFits c'
  := by
  constructor
  · intro hzero
    apply h.zero_notMem
    apply hpre.subset hzero
  · apply hpre.length_le.trans_lt h.length_lt

theorem dirBase_prefix (before : Byte) (path : List Byte) :
  (dirBase before path).1 <+: path
  := by
  unfold dirBase
  split_ifs
  · apply List.take_prefix
  · apply List.prefix_rfl

theorem nfsPath_nfsSend (c : Client) :
  (nfsSend c).1.nfsPath = c.nfsPath
  := by
  obtain ⟨_, h, _⟩ := nfsSend_eq c
  rw [h]

/-- The handler keeps the path that was built, or a part of it. -/
theorem nfsHandler_prefix (c : Client) (p : Received) :
  (nfsHandler c p).1.nfsPath <+: (parsed c p).nfsPath
  := by
  unfold nfsHandler parsed
  by_cases hdest : p.dest ≠ c.nfsOurPort
  · rw [if_pos hdest, if_pos hdest]
  rw [if_neg hdest, if_neg hdest]
  cases c.nfsState
  all_goals simp only [goTo]
  case readlinkReq =>
    split_ifs
    · rw [nfsPath_nfsSend]
    · rw [nfsPath_nfsSend]
      apply dirBase_prefix
  case umountReq =>
    split_ifs
    all_goals apply List.prefix_rfl
  all_goals try split_ifs
  all_goals rw [nfsPath_nfsSend]

/-- Buffers for a client. -/
theorem exists_represents (h : PathFits c) :
  ∃ m, Represents m c
  := by
  use fun
    | .nfsPathBuff => Memory.store (fun _ => 0) 0 (c.nfsPath ++ [0])
    | .dirfh => Memory.store (fun _ => 0) 0 c.dirfh
    | .filefh => Memory.store (fun _ => 0) 0 c.filefh
    | _ => fun _ => 0
  constructor
  case fits => apply h
  all_goals apply Memory.holds_store

theorem PathFits.nfsHandler (h : PathFits c) {p : Received} (hharmless : Harmless c p) :
  PathFits (Nfs.nfsHandler c p).1
  := by
  obtain ⟨m, hm⟩ := exists_represents h
  apply (hm.parsed hharmless).fits.of_prefix
  apply nfsHandler_prefix

theorem PathFits.nfsTimeout (h : PathFits c) :
  PathFits (Nfs.nfsTimeout c).1
  := by
  apply h.of_prefix
  unfold Nfs.nfsTimeout
  simp only
  split_ifs
  · apply List.prefix_rfl
  · rw [nfsPath_nfsSend]

theorem PathFits.nfsStart {path : List Byte} (hzero : 0 ∉ path) (hlen : path.length < 2048) :
  PathFits (Nfs.nfsStart c path).1
  := by
  apply PathFits.of_prefix (c := { c with nfsPath := path }) ⟨hzero, hlen⟩
  unfold Nfs.nfsStart goTo
  rw [nfsPath_nfsSend]
  apply dirBase_prefix

/-- However many links are followed: as long as each reply does no harm, the path fits. -/
theorem pathFits_run (c : Client) {path : List Byte} (hzero : 0 ∉ path) (hlen : path.length < 2048)
    {events : List Event}
    (h : Run.Along step (fun c e => ∀ p, e = .receive p → Harmless c p) (nfsStart c path).1
      events) :
  ∃ c', Run.exec step (nfsStart c path).1 events = some c' ∧ PathFits c'
  := by
  apply Run.exec_invariant _ (PathFits.nfsStart hzero hlen) h
  intro c e hfits hharmless
  refine ⟨_, rfl, ?_⟩
  cases e with
  | receive p =>
    unfold react
    split_ifs
    · apply hfits.nfsHandler (hharmless p rfl)
    · apply hfits
  | timeout =>
    unfold react
    split_ifs
    · apply hfits.nfsTimeout
    · apply hfits

end Nfs
