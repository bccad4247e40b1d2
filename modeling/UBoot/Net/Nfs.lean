import UBoot.Lib.AddressSpace

/-!
# The NFS client

`net/nfs.c`: the client asks the port mapper for two ports, mounts the directory, looks the file
up, reads it piece by piece, and unmounts the directory again.  A symbolic link makes it mount
another directory.  Every call has an id of its own, one more than the call before.
-/

namespace Nfs

/-- `NFS_RETRY_COUNT`. -/
def nfsRetryCount : ℕ := 30

/-- `NFS_FHSIZE`. -/
def nfsFhsize : ℕ := 32

/-- `NFS_READ_SIZE`. -/
def nfsReadSize : Word := 1024

/-- `SUNRPC_PORT`. -/
def sunrpcPort : Word := 111

/-- `PROG_PORTMAP`. -/
def progPortmap : Word := 100000

/-- `PROG_NFS`. -/
def progNfs : Word := 100003

/-- `PROG_MOUNT`. -/
def progMount : Word := 100005

/-- `PORTMAP_GETPORT`. -/
def portmapGetport : Word := 3

/-- `MOUNT_ADDENTRY`. -/
def mountAddentry : Word := 1

/-- `MOUNT_UMOUNTALL`. -/
def mountUmountall : Word := 4

/-- `NFS_LOOKUP`. -/
def nfsLookup : Word := 4

/-- `NFS_READLINK`. -/
def nfsReadlink : Word := 5

/-- `NFS_READ`. -/
def nfsRead : Word := 6

/-- `NFSERR_ISDIR`. -/
def nfserrIsdir : Word := 21

/-- `NFSERR_INVAL`. -/
def nfserrInval : Word := 22

/-- The size of a reply without the data of a file, `sizeof(rpc_pkt.u.reply)`. -/
def replySize : ℕ := 100

/-- A slash. -/
def slash : Byte := 0x2f

/-- `NfsState`. -/
inductive State where
  | prclookupProgMountReq
  | prclookupProgNfsReq
  | mountReq
  | umountReq
  | lookupReq
  | readReq
  | readlinkReq
deriving DecidableEq

/-- The values of `NetState`. -/
inductive NetState where
  | netloopContinue
  | netloopSuccess
  | netloopFail
deriving DecidableEq

/-- The variables.  The handler is the one of the client as long as `listening` is set; the byte
in front of the buffer for the path is `pathBefore`. -/
structure Client where
  fsMounted : Bool
  rpcId : Word
  nfsOffset : Word
  nfsLen : Word
  dirfh : List Byte
  filefh : List Byte
  nfsDownloadState : NetState
  netState : NetState
  nfsSrvMountPort : Word
  nfsSrvNfsPort : Word
  nfsOurPort : ℕ
  nfsTimeoutCount : ℕ
  nfsState : State
  nfsPath : List Byte
  nfsFilename : List Byte
  pathBefore : Byte
  loadAddr : Word
  mem : Word → Byte
  netBootFileXferSize : Word
  listening : Bool

/-- What is done besides: a call is sent to a port, a piece of the file is stored, or everything
starts again. -/
inductive Action where
  | send (port : Word) (payload : List Byte)
  | store (offset : Word) (bytes : List Byte)
  | startAgain
deriving DecidableEq

/-- A packet that was received: the memory from the first byte of its payload on, what was on
the stack where it is copied to, its ports and its length. -/
structure Received where
  pkt : ℕ → Byte
  stack : ℕ → Byte
  dest : ℕ
  src : ℕ
  len : ℕ

/-! ### Names -/

/-- `dirname` and `basename` of a path.  Without a slash the name begins at the byte in front of
the path; the NUL that `dirname` then writes one byte further in front is left out. -/
def dirBase (before : Byte) (path : List Byte) : List Byte × List Byte :=
  if slash ∈ path then
    let base := (path.reverse.takeWhile (· ≠ slash)).reverse
    (path.take (path.length - base.length - 1), base)
  else (path, (before :: path).takeWhile (· ≠ 0))

/-! ### Calls -/

/-- A string in a call: its length, and its bytes with zeros up to a multiple of 4. -/
def opaqueBytes (s : List Byte) : List Byte :=
  wordBytes (BitVec.ofNat 32 s.length) ++ s ++ List.replicate ((4 - s.length % 4) % 4) 0

/-- What `rpc_add_credentials` adds. -/
def credentials : List Byte := [1, 20, 0, 0, 0, 0, 0, 0, 0].flatMap wordBytes

/-- A call. -/
def rpcCall (id prog proc : Word) (data : List Byte) : List Byte :=
  [id, 0, 2, prog, 2, proc].flatMap wordBytes ++ data

/-- `rpc_req`. -/
def rpcReq (c : Client) (prog proc : Word) (data : List Byte) : Client × List Action :=
  let id := c.rpcId + 1
  let sport :=
    if prog = progPortmap then sunrpcPort
    else if prog = progMount then c.nfsSrvMountPort
    else c.nfsSrvNfsPort
  ({ c with rpcId := id }, [.send sport (rpcCall id prog proc data)])

/-- `rpc_lookup_req`. -/
def rpcLookupReq (c : Client) (prog ver : Word) : Client × List Action :=
  rpcReq c progPortmap portmapGetport ([0, 0, 0, 0, prog, ver, 17, 0].flatMap wordBytes)

/-- `nfs_mount_req`. -/
def nfsMountReq (c : Client) : Client × List Action :=
  rpcReq c progMount mountAddentry (credentials ++ opaqueBytes c.nfsPath)

/-- `nfs_umountall_req`. -/
def nfsUmountallReq (c : Client) : Client × List Action :=
  if c.nfsSrvMountPort = -1 ∨ ¬ c.fsMounted then (c, [])
  else rpcReq c progMount mountUmountall credentials

/-- `nfs_readlink_req`. -/
def nfsReadlinkReq (c : Client) : Client × List Action :=
  rpcReq c progNfs nfsReadlink (credentials ++ c.filefh)

/-- `nfs_lookup_req`. -/
def nfsLookupReq (c : Client) : Client × List Action :=
  rpcReq c progNfs nfsLookup (credentials ++ c.dirfh ++ opaqueBytes c.nfsFilename)

/-- The arguments of a call of `NFS_READ`. -/
def readArgs (fh : List Byte) (offset readlen : Word) : List Byte :=
  credentials ++ fh ++ wordBytes offset ++ wordBytes readlen ++ wordBytes 0

/-- `nfs_read_req`. -/
def nfsReadReq (c : Client) : Client × List Action :=
  rpcReq c progNfs nfsRead (readArgs c.filefh c.nfsOffset c.nfsLen)

/-- `NfsSend`. -/
def nfsSend (c : Client) : Client × List Action :=
  match c.nfsState with
  | .prclookupProgMountReq => rpcLookupReq c progMount 1
  | .prclookupProgNfsReq => rpcLookupReq c progNfs 2
  | .mountReq => nfsMountReq c
  | .umountReq => nfsUmountallReq c
  | .lookupReq => nfsLookupReq c
  | .readReq => nfsReadReq c
  | .readlinkReq => nfsReadlinkReq c

/-! ### Replies -/

/-- The copy of a packet that is made on the stack. -/
def Received.rpcPkt (p : Received) : ℕ → Byte := fun i => if i < p.len then p.pkt i else p.stack i

/-- A word of a reply. -/
def replyWord (m : ℕ → Byte) (i : ℕ) : Word := bytesWord (Memory.read m (4 * i) 4)

/-- The id of a reply. -/
def replyId (m : ℕ → Byte) : Word := replyWord m 0

/-- `rstatus`. -/
def replyRstatus (m : ℕ → Byte) : Word := replyWord m 2

/-- `verifier`. -/
def replyVerifier (m : ℕ → Byte) : Word := replyWord m 3

/-- `astatus`. -/
def replyAstatus (m : ℕ → Byte) : Word := replyWord m 5

/-- The words of the result. -/
def replyData (m : ℕ → Byte) (i : ℕ) : Word := replyWord m (6 + i)

/-- The reply has another id, or it says that the call failed. -/
def replyBad (c : Client) (m : ℕ → Byte) : Prop :=
  replyId m ≠ c.rpcId ∨ replyRstatus m ≠ 0 ∨ replyVerifier m ≠ 0 ∨ replyAstatus m ≠ 0

instance (c : Client) (m : ℕ → Byte) : Decidable (replyBad c m) :=
  inferInstanceAs (Decidable (_ ∨ _))

/-- `rpc_lookup_reply`. -/
def rpcLookupReply (c : Client) (prog : Word) (p : Received) : Client × ℤ :=
  if replyBad c p.rpcPkt then (c, -1)
  else if prog = progMount then ({ c with nfsSrvMountPort := replyData p.rpcPkt 0 }, 0)
  else ({ c with nfsSrvNfsPort := replyData p.rpcPkt 0 }, 0)

/-- `nfs_mount_reply`. -/
def nfsMountReply (c : Client) (p : Received) : Client × ℤ :=
  if replyBad c p.rpcPkt ∨ replyData p.rpcPkt 0 ≠ 0 then (c, -1)
  else ({ c with fsMounted := true, dirfh := Memory.read p.rpcPkt 28 nfsFhsize }, 0)

/-- `nfs_umountall_reply`. -/
def nfsUmountallReply (c : Client) (p : Received) : Client × ℤ :=
  if replyBad c p.rpcPkt then (c, -1)
  else ({ c with fsMounted := false, dirfh := List.replicate nfsFhsize 0 }, 0)

/-- `nfs_lookup_reply`. -/
def nfsLookupReply (c : Client) (p : Received) : Client × ℤ :=
  if replyBad c p.rpcPkt ∨ replyData p.rpcPkt 0 ≠ 0 then (c, -1)
  else ({ c with filefh := Memory.read p.rpcPkt 28 nfsFhsize }, 0)

/-- `nfs_readlink_reply`. -/
def nfsReadlinkReply (c : Client) (p : Received) : Client × ℤ :=
  if replyBad c p.rpcPkt ∨ replyData p.rpcPkt 0 ≠ 0 then (c, -1)
  else
    let target := Memory.read p.rpcPkt 32 (replyData p.rpcPkt 1).toNat
    let path := if p.rpcPkt 32 ≠ slash then c.nfsPath ++ [slash] ++ target else target
    ({ c with nfsPath := path.takeWhile (· ≠ 0) }, 0)

/-- `store_block`. -/
def storeBlock (c : Client) (offset : Word) (bytes : List Byte) : Client × List Action :=
  let newsize := offset + BitVec.ofNat 32 bytes.length
  ({ c with
      mem := AddressSpace.copy c.mem (c.loadAddr + offset) bytes
      netBootFileXferSize :=
        if c.netBootFileXferSize < newsize then newsize else c.netBootFileXferSize },
    [.store offset bytes])

/-- `nfs_read_reply`.  The packet is not copied as a whole. -/
def nfsReadReply (c : Client) (p : Received) : (Client × List Action) × ℤ :=
  if replyId p.pkt ≠ c.rpcId then ((c, []), -1)
  else if replyBad c p.pkt ∨ replyData p.pkt 0 ≠ 0 then
    if replyRstatus p.pkt ≠ 0 then ((c, []), -9999)
    else if replyAstatus p.pkt ≠ 0 then ((c, []), -9999)
    else ((c, []), (- replyData p.pkt 0).toInt)
  else
    let rlen := replyData p.pkt 18
    (storeBlock c c.nfsOffset (Memory.read p.pkt replySize rlen.toNat), rlen.toInt)

/-- `NfsTimeout`. -/
def nfsTimeout (c : Client) : Client × List Action :=
  let c := { c with nfsTimeoutCount := c.nfsTimeoutCount + 1 }
  if c.nfsTimeoutCount > nfsRetryCount then ({ c with listening := false }, [.startAgain])
  else nfsSend c

/-- The next state, and its call. -/
def goTo (c : Client) (s : State) : Client × List Action := nfsSend { c with nfsState := s }

/-- `NfsHandler`. -/
def nfsHandler (c : Client) (p : Received) : Client × List Action :=
  if p.dest ≠ c.nfsOurPort then (c, [])
  else
    match c.nfsState with
    | .prclookupProgMountReq => goTo (rpcLookupReply c progMount p).1 .prclookupProgNfsReq
    | .prclookupProgNfsReq => goTo (rpcLookupReply c progNfs p).1 .mountReq
    | .mountReq =>
      let r := nfsMountReply c p
      if r.2 ≠ 0 then goTo r.1 .umountReq else goTo r.1 .lookupReq
    | .umountReq =>
      let r := nfsUmountallReply c p
      if r.2 ≠ 0 then ({ r.1 with netState := .netloopFail }, [])
      else ({ r.1 with netState := r.1.nfsDownloadState }, [])
    | .lookupReq =>
      let r := nfsLookupReply c p
      if r.2 ≠ 0 then goTo r.1 .umountReq
      else goTo { r.1 with nfsOffset := 0, nfsLen := nfsReadSize } .readReq
    | .readlinkReq =>
      let r := nfsReadlinkReply c p
      if r.2 ≠ 0 then goTo r.1 .umountReq
      else
        let names := dirBase r.1.pathBefore r.1.nfsPath
        goTo { r.1 with nfsPath := names.1, nfsFilename := names.2 } .mountReq
    | .readReq =>
      let r := nfsReadReply c p
      let rlen := r.2
      let next :=
        if rlen > 0 then nfsSend { r.1.1 with nfsOffset := r.1.1.nfsOffset + BitVec.ofInt 32 rlen }
        else if rlen = - nfserrIsdir.toInt ∨ rlen = - nfserrInval.toInt then
          goTo r.1.1 .readlinkReq
        else if rlen = 0 then
          goTo { r.1.1 with nfsDownloadState := .netloopSuccess } .umountReq
        else goTo r.1.1 .umountReq
      (next.1, r.1.2 ++ next.2)

/-- `NfsStart`, for a path. -/
def nfsStart (c : Client) (path : List Byte) : Client × List Action :=
  let names := dirBase c.pathBefore path
  goTo { c with
    nfsDownloadState := .netloopFail
    netState := .netloopContinue
    nfsPath := names.1
    nfsFilename := names.2
    nfsTimeoutCount := 0
    nfsOurPort := 1000
    netBootFileXferSize := 0
    listening := true } .prclookupProgMountReq

/-- What happens next: a packet is received, or the time is up. -/
inductive Event where
  | receive (p : Received)
  | timeout

/-- What the client does. -/
def react (c : Client) : Event → Client × List Action
  | .receive p => if c.listening then nfsHandler c p else (c, [])
  | .timeout => if c.listening then nfsTimeout c else (c, [])

/-- What is stored. -/
def stored (actions : List Action) : List (Word × List Byte) :=
  actions.filterMap fun
    | .store offset bytes => some (offset, bytes)
    | _ => none

/-- A call changes nothing but the id, and stores nothing. -/
theorem nfsSend_eq (c : Client) :
  ∃ id, (nfsSend c).1 = { c with rpcId := id } ∧ stored (nfsSend c).2 = []
  := by
  unfold nfsSend
  split
  case h_4 =>
    unfold nfsUmountallReq
    split
    · exact ⟨c.rpcId, rfl, rfl⟩
    · exact ⟨c.rpcId + 1, rfl, rfl⟩
  all_goals exact ⟨c.rpcId + 1, rfl, rfl⟩

end Nfs
