import UBoot.Fs.FatTable

/-!
# The contents of a file

`get_contents` reads with one call the clusters that follow one another on the disk.  When all
reads succeed, it finds what is found cluster by cluster, unless the table leads from a cluster to
the next one and that is not a cluster of a file: then the clusters that have been found together
are not read.
-/

namespace Fat

open StateTransition

/-! ### Reading -/

/-- All reads succeed. -/
def Disk.Serves (d : Disk) (image : Sectors) : Prop :=
  ∀ start n, diskRead d start n = ⟨image.bytes start (n * sectorSize), n⟩

theorem disk_serves (image : Sectors) :
  image.disk.Serves image
  := diskRead_disk image

theorem take_bytes (image : Sectors) (start : Word) {m n : ℕ} (h : m ≤ n) :
  (image.bytes start n).take m = image.bytes start m
  := Memory.take_read (image.stream start) 0 h

theorem bytes_add (image : Sectors) (start : Word) (k n : ℕ) :
  image.bytes start (k * sectorSize + n)
    = image.bytes start (k * sectorSize) ++ image.bytes (start + BitVec.ofNat 32 k) n
  := by
  rw [Sectors.bytes, Memory.read_add]
  congr 1
  apply List.ext_getElem
  · rw [Memory.length_read, length_bytes]
  · intro i _ _
    rw [Memory.getElem_read, Nat.zero_add, stream_add]
    symm
    apply (Memory.getElem_read _ _ _ _ _).trans
    rw [Nat.zero_add]

theorem getCluster_eq {d : Disk} {image : Sectors} (hd : d.Serves image) (fs : Fsdata) (c : Word)
    (mem : ℕ → Byte) (buffer size : ℕ) :
  getCluster d fs c mem buffer size
    = (Memory.store mem buffer (image.bytes (fs.startsect c) size), true)
  := by
  have hsplit : size = size / sectorSize * sectorSize + size % sectorSize := by
    rw [Nat.div_add_mod']
  rw [getCluster]
  dsimp only
  rw [hd, hd]
  dsimp only
  rw [if_neg (Int.not_lt.mpr (Int.natCast_nonneg _))]
  by_cases hrest : size % sectorSize ≠ 0
  · rw [if_pos hrest, if_neg (by decide)]
    have hle : size % sectorSize ≤ sectorSize := (Nat.mod_lt _ (by decide)).le
    have hholds := Memory.holds_store d.stack 0
      (image.bytes (fs.startsect c + BitVec.ofNat 32 (size / sectorSize)) (1 * sectorSize))
    rw [hholds.read_take (by rw [length_bytes, Nat.one_mul]; exact hle),
      take_bytes _ _ (by rw [Nat.one_mul]; exact hle)]
    conv_rhs => rw [hsplit, bytes_add, Memory.store_append, length_bytes]
  · rw [if_neg hrest]
    conv_rhs => rw [hsplit, not_not.mp hrest, Nat.add_zero]

/-! ### The table does not change -/

/-- The buffer with a part of the table. -/
def Fsdata.loaded (d : Disk) (fs : Fsdata) (bufnum : Word) : ℕ → Byte :=
  Memory.store fs.fatbuf 0 (diskRead d (fs.startblock bufnum) fs.getsize).data

/-- What `get_fatent` may leave of `fs₀`: the buffer has the part that it is said to have. -/
structure Cached (d : Disk) (fs₀ fs : Fsdata) : Prop where
  rest : fs = { fs₀ with fatbuf := fs.fatbuf, fatbufnum := fs.fatbufnum }
  none : fs₀.getsize = 0 → ∀ i < fatbufsize, fs.fatbuf i = fs₀.fatbuf i
  tag : fs.fatbufnum = -1 ∨ ∀ i < fatbufsize, fs.fatbuf i = fs₀.loaded d fs.fatbufnum i

section Cached

variable {d : Disk} {image : Sectors} {fs₀ fs : Fsdata}

theorem Cached.fatsize (h : Cached d fs₀ fs) :
  fs.fatsize = fs₀.fatsize
  := by rw [h.rest]

theorem Cached.startsect (h : Cached d fs₀ fs) (c : Word) :
  fs.startsect c = fs₀.startsect c
  := by
  rw [h.rest]
  rfl

theorem Cached.bytesperclust (h : Cached d fs₀ fs) :
  fs.bytesperclust = fs₀.bytesperclust
  := by
  rw [h.rest]
  rfl

theorem getsize_cases (fs : Fsdata) :
  fs.getsize = 0 ∨ fs.getsize * sectorSize = fatbufsize
  := by
  rw [Fsdata.getsize, fatbufsize, sectorSize, fatbufblocks]
  omega

theorem store_of_bytes (image : Sectors) (buf : ℕ → Byte) (start : Word) {n i : ℕ}
    (h : i < n) :
  Memory.store buf 0 (image.bytes start n) i = image.stream start i
  := by
  rw [Memory.store_zero_of_lt buf (by rwa [length_bytes])]
  apply (Memory.getElem_read _ _ _ _ _).trans
  rw [Nat.zero_add]

/-- It does not matter what was in the buffer before a part is read. -/
theorem Cached.loaded (h : Cached d fs₀ fs) (hd : d.Serves image) (bufnum : Word) {i : ℕ}
    (hi : i < fatbufsize) :
  fs.loaded d bufnum i = fs₀.loaded d bufnum i
  := by
  have hstart : fs.startblock bufnum = fs₀.startblock bufnum := by
    rw [h.rest]
    rfl
  have hsize : fs.getsize = fs₀.getsize := by
    rw [h.rest]
    rfl
  rw [Fsdata.loaded, Fsdata.loaded, hd, hd, hstart, hsize]
  obtain hzero | hfull := getsize_cases fs₀
  · rw [hzero]
    exact h.none hzero i hi
  · rw [hfull, store_of_bytes _ _ _ hi, store_of_bytes _ _ _ hi]

theorem entryAt_congr {fatsize n offset : ℕ} {buf buf' : ℕ → Byte}
    (hn : entriesPerBuf fatsize = some n) (hoffset : offset < n)
    (h : ∀ i < fatbufsize, buf i = buf' i) :
  entryAt fatsize buf offset = entryAt fatsize buf' offset
  := by
  rw [entryAt_rawEntry hn, entryAt_rawEntry hn]
  have hbuf : ∀ i < fatbufsize, buf i = buf' (0 * fatbufsize + i) := by
    intro i hi
    rw [Nat.zero_mul, Nat.zero_add]
    exact h i hi
  rw [rawEntry_part hn hoffset hbuf, Nat.zero_mul, Nat.zero_add]

theorem entriesPerBuf_pos {fatsize n : ℕ} (h : entriesPerBuf fatsize = some n) :
  0 < n
  := by
  obtain ⟨_, rfl⟩ | ⟨_, rfl⟩ | ⟨_, rfl⟩ := entriesPerBuf_cases h
  all_goals decide

/-- A call leaves a buffer that has what it is said to have, and finds the entry that it finds in
any such buffer. -/
theorem Cached.getFatent_spec (h : Cached d fs₀ fs) (hd : d.Serves image) (e : Word) :
  Cached d fs₀ (getFatent d fs e).1
  ∧ ∀ n, entriesPerBuf fs₀.fatsize = some n →
      (getFatent d fs e).2 = entryAt fs₀.fatsize (fs₀.loaded d (fs₀.part e)) (e.toNat % n)
  := by
  have hpart : fs.part e = fs₀.part e := by rw [Fsdata.part, Fsdata.part, h.fatsize]
  cases hn : entriesPerBuf fs.fatsize with
  | none =>
    have hcall : getFatent d fs e = (fs, 0) := by rw [getFatent, hn]
    rw [hcall]
    use h
    intro n hn₀
    rw [← h.fatsize, hn] at hn₀
    cases hn₀
  | some n =>
    have hlt := Nat.mod_lt e.toNat (entriesPerBuf_pos hn)
    by_cases hmiss : fs.Misses e
    · have hret : ¬ (fs.fetch d e).ret < 0 := by
        rw [Fsdata.fetch, hd]
        exact Int.not_lt.mpr (Int.natCast_nonneg _)
      have hbuf : ∀ i < fatbufsize, fs.fetched d e i = fs₀.loaded d (fs₀.part e) i := by
        intro i hi
        rw [← hpart]
        exact h.loaded hd _ hi
      rw [getFatent_of_read hn hmiss hret]
      constructor
      · constructor
        · rw [h.rest]
        · intro hzero i hi
          apply (hbuf i hi).trans
          rw [Fsdata.loaded, hd, hzero]
          rfl
        · right
          rw [hpart]
          exact hbuf
      · intro m hm
        rw [← h.fatsize, hn] at hm
        obtain rfl := Option.some.inj hm
        rw [← h.fatsize]
        exact entryAt_congr hn hlt hbuf
    · rw [getFatent_of_hit hn hmiss]
      use h
      intro m hm
      rw [← h.fatsize, hn] at hm
      obtain rfl := Option.some.inj hm
      have heq : fs.part e = fs.fatbufnum := not_not.mp hmiss
      have hbuf := h.tag.resolve_left fun hnone => part_ne hn (heq.trans hnone)
      rw [← heq, hpart] at hbuf
      rw [← h.fatsize]
      exact entryAt_congr hn hlt hbuf

/-- The entries do not depend on what the buffer has. -/
theorem Cached.entry_eq (h : Cached d fs₀ fs) (h₀ : Cached d fs₀ fs₀) (hd : d.Serves image)
    (e : Word) :
  (getFatent d fs e).2 = (getFatent d fs₀ e).2
  := by
  cases hn : entriesPerBuf fs₀.fatsize with
  | none =>
    rw [getFatent, getFatent, h.fatsize, hn]
  | some n => rw [(h.getFatent_spec hd e).2 n hn, (h₀.getFatent_spec hd e).2 n hn]

/-- An empty buffer is said to have nothing. -/
theorem cached_of_empty (h : fs.fatbufnum = -1) :
  Cached d fs fs
  := ⟨rfl, fun _ _ _ => rfl, .inl h⟩

end Cached

/-! ### Files -/

/-- `get_fatent` on what there is at the start. -/
def fatent (d : Disk) (fs : Fsdata) (c : Word) : Word := (getFatent d fs c).2

/-- The number of bytes of a cluster. -/
def Fsdata.clusterBytes (fs : Fsdata) : ℕ := fs.clustSize.toNat * sectorSize

/-- The bytes that are read one cluster at a time, from a cluster on and if `n` are left. -/
inductive Reads (image : Sectors) (d : Disk) (fs : Fsdata) : Word → ℕ → List Byte → Prop
  | last {c : Word} {n : ℕ} (h : n ≤ fs.clusterBytes) :
    Reads image d fs c n (image.bytes (fs.startsect c) n)
  | invalid {c : Word} {n : ℕ} (h : fs.clusterBytes < n)
      (hcheck : checkClust (fatent d fs c) fs.fatsize) :
    Reads image d fs c n (image.bytes (fs.startsect c) fs.clusterBytes)
  | next {c : Word} {n : ℕ} {rest : List Byte} (h : fs.clusterBytes < n)
      (hcheck : ¬ checkClust (fatent d fs c) fs.fatsize)
      (hrest : Reads image d fs (fatent d fs c) (n - fs.clusterBytes) rest) :
    Reads image d fs c n (image.bytes (fs.startsect c) fs.clusterBytes ++ rest)

/-- `get_contents` writes and returns what is read one cluster at a time. -/
def ReadsFile (image : Sectors) (d : Disk) (fs : Fsdata) (mem : ℕ → Byte)
    (start size maxsize : Word) : Prop :=
  ∀ (mem' : ℕ → Byte) (ret : Word),
    (∃ fuel c, getContents d fs mem start size maxsize fuel = some c
        ∧ c.mem = mem' ∧ c.ret = ret)
      ↔ ∃ bytes, Reads image d fs start (limit size maxsize).toNat bytes
          ∧ mem' = Memory.store mem 0 bytes ∧ ret = BitVec.ofNat 32 bytes.length

/-- From one cluster to the next, with the number of bytes that are to be read. -/
def chain (d : Disk) (fs : Fsdata) (s : Word × ℕ) : Option (Word × ℕ) :=
  if fs.clusterBytes < s.2 ∧ ¬ checkClust (fatent d fs s.1) fs.fatsize then
    some (fatent d fs s.1, s.2 - fs.clusterBytes)
  else none

/-- The table leads to the next cluster, and that is not a cluster of a file. -/
def Lost (d : Disk) (fs : Fsdata) (s : Word × ℕ) : Prop :=
  0 < fs.clusterBytes ∧ fs.clusterBytes < s.2 ∧ fatent d fs s.1 = s.1 + 1
    ∧ checkClust (fatent d fs s.1) fs.fatsize

/-- There is no such cluster in the file. -/
def Kept (d : Disk) (fs : Fsdata) (start : Word) (n : ℕ) : Prop :=
  ∀ s, Reaches (chain d fs) (start, n) s → ¬ Lost d fs s

/-- The table leads from a cluster to the next one. -/
def Follows (d : Disk) (fs : Fsdata) (c : Word) : Prop :=
  fatent d fs c = c + 1 ∧ ¬ checkClust (fatent d fs c) fs.fatsize

/-- The clusters that are found together have less than 4 GiB. -/
def Fits (d : Disk) (fs : Fsdata) (start : Word) (n : ℕ) : Prop :=
  ∀ k, k * fs.clusterBytes < n → (∀ i < k, Follows d fs (start + BitVec.ofNat 32 i)) →
    (k + 1) * fs.clusterBytes < 2 ^ 32

section Files

variable {d : Disk} {image : Sectors} {fs : Fsdata}

theorem toNat_bytesperclust (fs : Fsdata) :
  fs.bytesperclust.toNat = fs.clusterBytes
  := by
  have h := fs.clustSize.isLt
  rw [Fsdata.bytesperclust, Fsdata.clusterBytes, sectorSize, BitVec.toNat_mul,
    BitVec.toNat_setWidth, BitVec.toNat_ofNat]
  omega

/-- Of a file with room for a cluster less than 4 GiB, all clusters may be found together. -/
theorem fits_of_le {start : Word} {n : ℕ} (h : n + fs.clusterBytes ≤ 2 ^ 32) :
  Fits d fs start n
  := by
  intro k hk _
  rw [Nat.succ_mul]
  omega

theorem Kept.not_lost {c : Word} {n : ℕ} (h : Kept d fs c n) :
  ¬ Lost d fs (c, n)
  := h _ .refl

/-- What is kept of a file is kept of the rest. -/
theorem kept_next {c : Word} {n : ℕ} (hlt : fs.clusterBytes < n)
    (hcheck : ¬ checkClust (fatent d fs c) fs.fatsize) :
  Kept d fs c n ↔ Kept d fs (fatent d fs c) (n - fs.clusterBytes)
  := by
  have hnext : chain d fs (c, n) = some (fatent d fs c, n - fs.clusterBytes) :=
    if_pos ⟨hlt, hcheck⟩
  constructor
  · intro h s hs
    apply h
    apply Relation.ReflTransGen.head (r := fun a b => b ∈ chain d fs a) hnext hs
  · intro h s hs
    obtain rfl | ⟨t, ht, hs⟩ := Relation.ReflTransGen.cases_head hs
    · exact fun hlost => hcheck hlost.2.2.2
    · rw [hnext] at ht
      obtain rfl := Option.some.inj ht
      exact h s hs

theorem kept_of_none {c : Word} {n : ℕ} (hnone : chain d fs (c, n) = none)
    (hlost : ¬ Lost d fs (c, n)) :
  Kept d fs c n
  := by
  intro s hs
  obtain rfl | ⟨t, ht, _⟩ := Relation.ReflTransGen.cases_head hs
  · exact hlost
  · rw [hnone] at ht
    cases ht

theorem ofNat_succ (c : Word) (k : ℕ) :
  c + BitVec.ofNat 32 (k + 1) = c + BitVec.ofNat 32 k + 1
  := by
  rw [BitVec.ofNat_add, BitVec.add_assoc]
  rfl

/-- The clusters of a run follow one another on the disk. -/
theorem startsect_run {c : Word} {k : ℕ}
    (h : ∀ i < k, Follows d fs (c + BitVec.ofNat 32 i)) :
  fs.startsect (c + BitVec.ofNat 32 k)
    = fs.startsect c + BitVec.ofNat 32 (k * fs.clustSize.toNat)
  := by
  cases k with
  | zero => rw [Nat.zero_mul, BitVec.add_zero, BitVec.add_zero]
  | succ k =>
    have hvalid : ∀ i < k + 1, 1 < c + BitVec.ofNat 32 i + 1 := by
      intro i hi
      obtain ⟨heq, hcheck⟩ := h i hi
      rw [heq, checkClust, not_or, BitVec.not_le] at hcheck
      exact hcheck.1
    have hfirst : 0 < c := by
      have h₀ := hvalid 0 (Nat.succ_pos k)
      bv_omega
    have hlast : 0 < c + BitVec.ofNat 32 (k + 1) := by
      have h₁ := hvalid k (Nat.lt_succ_self k)
      rw [← ofNat_succ] at h₁
      bv_omega
    rw [Fsdata.startsect, Fsdata.startsect, if_pos hfirst, if_pos hlast, BitVec.add_assoc,
      BitVec.ofNat_mul, BitVec.ofNat_toNat, BitVec.add_mul]

/-- The clusters of a run are read with one call. -/
theorem bytes_run {c : Word} {k : ℕ} (h : ∀ i < k, Follows d fs (c + BitVec.ofNat 32 i))
    (n : ℕ) :
  image.bytes (fs.startsect c) (k * fs.clusterBytes + n)
    = image.bytes (fs.startsect c) (k * fs.clusterBytes)
        ++ image.bytes (fs.startsect (c + BitVec.ofNat 32 k)) n
  := by
  rw [startsect_run h, Fsdata.clusterBytes, ← Nat.mul_assoc, bytes_add]

/-! ### Rounds -/

/-- A round: `k` clusters that follow one another are found but for the last one, `endclust`.  When
they have been read `g` bytes are in the buffer, the memory is `m`, and `n` bytes are left. -/
structure Pending (image : Sectors) (d : Disk) (fs : Fsdata) (r : Reading) (k : ℕ)
    (m : ℕ → Byte) (g n : ℕ) : Prop where
  cached : Cached d fs r.fs
  endclust : r.endclust = r.curclust + BitVec.ofNat 32 k
  run : ∀ i < k, Follows d fs (r.curclust + BitVec.ofNat 32 i)
  actsize : r.actsize.toNat = (k + 1) * fs.clusterBytes
  filesize : r.filesize.toNat = k * fs.clusterBytes + n
  mem : m = Memory.store r.mem r.gotsize.toNat
    (image.bytes (fs.startsect r.curclust) (k * fs.clusterBytes))
  gotsize : g = r.gotsize.toNat + k * fs.clusterBytes
  total : g + n < 2 ^ 32
  fits : Fits d fs r.curclust r.filesize.toNat

variable {r : Reading} {k g n : ℕ} {m : ℕ → Byte}

/-- The last round: the rest of the file is in this cluster. -/
theorem Pending.round_last (h : Pending image d fs r k m g n) (hd : d.Serves image)
    (hn : n ≤ fs.clusterBytes) :
  ∃ fs', round d r = .inr ⟨fs', Memory.store m g (image.bytes (fs.startsect r.endclust) n),
    BitVec.ofNat 32 (g + n)⟩
  := by
  have hgot := h.gotsize
  have htotal := h.total
  have hrest : (r.actsize - r.fs.bytesperclust).toNat = k * fs.clusterBytes := by
    have hact := h.actsize
    have hbytes := toNat_bytesperclust fs
    rw [Nat.succ_mul] at hact
    rw [h.cached.bytesperclust]
    bv_omega
  have hsum : (r.gotsize + (r.actsize - r.fs.bytesperclust)).toNat = g := by
    rw [BitVec.toNat_add, hrest, hgot]
    apply Nat.mod_eq_of_lt
    omega
  have hleft : (r.filesize - (r.actsize - r.fs.bytesperclust)).toNat = n := by
    have hfile := h.filesize
    bv_omega
  use r.fs
  rw [round, if_neg, finish]
  · dsimp only
    rw [getCluster_eq hd, getCluster_eq hd, hrest, hsum, hleft, h.cached.startsect,
      h.cached.startsect, ← h.mem]
    dsimp only
    rw [if_neg (by decide), if_neg (by decide)]
    congr 2
    apply BitVec.eq_of_toNat_eq
    rw [BitVec.toNat_add, hsum, hleft, BitVec.toNat_ofNat]
  · have hact := h.actsize
    have hfile := h.filesize
    rw [Nat.succ_mul] at hact
    rw [BitVec.lt_def]
    omega

/-- The clusters that are found are not read. -/
theorem Pending.round_lost (h : Pending image d fs r k m g n) (hd : d.Serves image)
    (h₀ : Cached d fs fs) (hn : fs.clusterBytes < n)
    (hnext : fatent d fs r.endclust = r.endclust + 1)
    (hcheck : checkClust (fatent d fs r.endclust) fs.fatsize) :
  ∃ fs', round d r = .inr ⟨fs', r.mem, r.gotsize⟩
  := by
  have hact := h.actsize
  have hfile := h.filesize
  rw [Nat.succ_mul] at hact
  have hentry : (getFatent d r.fs r.endclust).2 = fatent d fs r.endclust :=
    h.cached.entry_eq h₀ hd r.endclust
  have hsize := (h.cached.getFatent_spec hd r.endclust).1.fatsize
  use (getFatent d r.fs r.endclust).1
  rw [round, if_pos (by rw [BitVec.lt_def]; omega)]
  dsimp only
  rw [hentry, if_neg, hsize, if_pos hcheck]
  rw [hnext, not_not, BitVec.add_sub_cancel]

/-- What is in the buffer after the run and the cluster that ends it. -/
theorem Pending.mem_eq (h : Pending image d fs r k m g n) :
  Memory.store r.mem r.gotsize.toNat (image.bytes (fs.startsect r.curclust) r.actsize.toNat)
    = Memory.store m g (image.bytes (fs.startsect r.endclust) fs.clusterBytes)
  := by
  rw [h.actsize, Nat.succ_mul, bytes_run h.run, Memory.store_append, length_bytes, ← h.mem,
    ← h.endclust, h.gotsize]

/-- At the end of a run its clusters are read. -/
theorem Pending.round_getit (h : Pending image d fs r k m g n) (hd : d.Serves image)
    (h₀ : Cached d fs fs) (hn : fs.clusterBytes < n)
    (hnext : fatent d fs r.endclust ≠ r.endclust + 1) :
  ∃ fs', Cached d fs fs'
    ∧ round d r = if checkClust (fatent d fs r.endclust) fs.fatsize then
          .inr ⟨fs', Memory.store m g (image.bytes (fs.startsect r.endclust) fs.clusterBytes),
            r.gotsize + r.actsize⟩
        else
          .inl ⟨fs', Memory.store m g (image.bytes (fs.startsect r.endclust) fs.clusterBytes),
            fatent d fs r.endclust, fatent d fs r.endclust, fs.bytesperclust,
            r.filesize - r.actsize, r.gotsize + r.actsize⟩
  := by
  have hact := h.actsize
  have hfile := h.filesize
  rw [Nat.succ_mul] at hact
  have hcached := (h.cached.getFatent_spec hd r.endclust).1
  have hcached' := (hcached.getFatent_spec hd r.endclust).1
  have hentry : (getFatent d r.fs r.endclust).2 = fatent d fs r.endclust :=
    h.cached.entry_eq h₀ hd r.endclust
  have hentry' : (getFatent d (getFatent d r.fs r.endclust).1 r.endclust).2
      = fatent d fs r.endclust := hcached.entry_eq h₀ hd r.endclust
  have hne : fatent d fs r.endclust - 1 ≠ r.endclust := by
    intro heq
    apply hnext
    have hsum : fatent d fs r.endclust - 1 + 1 = r.endclust + 1 := by rw [heq]
    rwa [BitVec.sub_add_cancel] at hsum
  use (getFatent d (getFatent d r.fs r.endclust).1 r.endclust).1, hcached'
  rw [round, if_pos (by rw [BitVec.lt_def]; omega)]
  dsimp only
  rw [hentry, if_pos hne, getit]
  dsimp only
  rw [getCluster_eq hd, hcached.startsect, h.mem_eq]
  dsimp only
  rw [if_neg (by decide), hentry', hcached'.fatsize, hcached'.bytesperclust]

theorem Pending.gotsize_add (h : Pending image d fs r k m g n) (hn : fs.clusterBytes < n) :
  (r.gotsize + r.actsize).toNat = g + fs.clusterBytes
  := by
  have hact := h.actsize
  have hgot := h.gotsize
  have htotal := h.total
  rw [Nat.succ_mul] at hact
  rw [BitVec.toNat_add, Nat.mod_eq_of_lt]
  all_goals omega

/-- The table leads to another cluster of the file. -/
theorem Pending.round_next (h : Pending image d fs r k m g n) (hd : d.Serves image)
    (h₀ : Cached d fs fs) (hn : fs.clusterBytes < n)
    (hcheck : ¬ checkClust (fatent d fs r.endclust) fs.fatsize) :
  ∃ r' k', round d r = .inl r' ∧ r'.endclust = fatent d fs r.endclust
    ∧ Pending image d fs r' k'
        (Memory.store m g (image.bytes (fs.startsect r.endclust) fs.clusterBytes))
        (g + fs.clusterBytes) (n - fs.clusterBytes)
  := by
  have hact := h.actsize
  have hfile := h.filesize
  have htotal := h.total
  have hsum := h.gotsize_add hn
  rw [Nat.succ_mul] at hact
  by_cases hnext : fatent d fs r.endclust = r.endclust + 1
  · have hfollows : ∀ i < k + 1, Follows d fs (r.curclust + BitVec.ofNat 32 i) := by
      intro i hi
      obtain hi | rfl := Nat.lt_succ_iff_lt_or_eq.mp hi
      · exact h.run i hi
      · rw [← h.endclust]
        exact ⟨hnext, hcheck⟩
    have hfits := h.fits (k + 1) (by rw [hfile, Nat.succ_mul]; omega) hfollows
    have hcached := (h.cached.getFatent_spec hd r.endclust).1
    have hentry : (getFatent d r.fs r.endclust).2 = fatent d fs r.endclust :=
      h.cached.entry_eq h₀ hd r.endclust
    use { r with
      fs := (getFatent d r.fs r.endclust).1
      endclust := fatent d fs r.endclust
      actsize := r.actsize + fs.bytesperclust }, k + 1
    constructor
    · rw [round, if_pos (by rw [BitVec.lt_def]; omega)]
      dsimp only
      rw [hentry, if_neg, hcached.fatsize, if_neg hcheck, hcached.bytesperclust]
      rw [hnext, not_not, BitVec.add_sub_cancel]
    use rfl
    constructor
    · exact hcached
    · dsimp only
      rw [hnext, h.endclust, ofNat_succ]
    · exact hfollows
    · dsimp only
      rw [BitVec.toNat_add, toNat_bytesperclust, Nat.mod_eq_of_lt]
      all_goals
        rw [Nat.succ_mul, Nat.succ_mul] at *
        omega
    · dsimp only
      rw [Nat.succ_mul]
      omega
    · dsimp only
      rw [← h.mem_eq, h.actsize]
    · dsimp only
      rw [Nat.succ_mul, h.gotsize, Nat.add_assoc]
    · omega
    · exact h.fits
  · obtain ⟨fs', hcached, hround⟩ := h.round_getit hd h₀ hn hnext
    rw [if_neg hcheck] at hround
    refine ⟨_, 0, hround, rfl, ?_⟩
    have hleft : (r.filesize - r.actsize).toNat = n - fs.clusterBytes := by
      bv_omega
    constructor
    · exact hcached
    · exact (BitVec.add_zero _).symm
    · intro i hi
      cases hi
    · dsimp only
      rw [toNat_bytesperclust, Nat.zero_add, Nat.one_mul]
    · dsimp only
      rw [hleft, Nat.zero_mul, Nat.zero_add]
    · rw [Nat.zero_mul]
      rfl
    · dsimp only
      rw [hsum, Nat.zero_mul, Nat.add_zero]
    · omega
    · dsimp only
      apply fits_of_le
      rw [hleft]
      omega

/-! ### What is read -/

/-- What is found of a file: all that is read one cluster at a time if nothing is lost, and else
not as much. -/
structure Outcome (image : Sectors) (d : Disk) (fs : Fsdata) (c : Word) (n : ℕ) (m : ℕ → Byte)
    (g : ℕ) (res : Contents) (bytes : List Byte) : Prop where
  reads : Reads image d fs c n bytes
  mem : Kept d fs c n → res.mem = Memory.store m g bytes
  ret : Kept d fs c n → res.ret = BitVec.ofNat 32 (g + bytes.length)
  less : ¬ Kept d fs c n → res.ret.toNat < g + bytes.length

theorem chain_of_le {c : Word} (h : n ≤ fs.clusterBytes) :
  chain d fs (c, n) = none
  := if_neg fun hlt => Nat.not_lt.mpr h hlt.1

theorem chain_of_check {c : Word} (h : checkClust (fatent d fs c) fs.fatsize) :
  chain d fs (c, n) = none
  := if_neg fun hlt => hlt.2 h

/-- When the rounds end, they have found what there is. -/
theorem Pending.outcome (h : Pending image d fs r k m g n) (hd : d.Serves image)
    (h₀ : Cached d fs fs) {fuel : ℕ} {res : Contents}
    (hrun : Walk.run (next d) fuel (.inl r) = some (.inr res)) :
  ∃ bytes, Outcome image d fs r.endclust n m g res bytes
  := by
  induction fuel generalizing r k m g n with
  | zero => cases hrun
  | succ fuel ih =>
    rw [Walk.run] at hrun
    change Walk.run (next d) fuel (round d r) = _ at hrun
    have hdone : ∀ res', round d r = .inr res' → res = res' := by
      intro res' hround
      rw [hround] at hrun
      cases fuel with
      | zero => cases hrun
      | succ fuel => exact (Sum.inr.inj (Option.some.inj hrun)).symm
    by_cases hn : n ≤ fs.clusterBytes
    · obtain ⟨fs', hround⟩ := h.round_last hd hn
      obtain rfl := hdone _ hround
      have hkept : Kept d fs r.endclust n := by
        apply kept_of_none (chain_of_le hn)
        exact fun hlost => Nat.not_lt.mpr hn hlost.2.1
      refine ⟨_, .last hn, fun _ => rfl, fun _ => ?_, fun hnot => absurd hkept hnot⟩
      rw [length_bytes]
    rw [Nat.not_le] at hn
    by_cases hcheck : checkClust (fatent d fs r.endclust) fs.fatsize
    · by_cases hnext : fatent d fs r.endclust = r.endclust + 1
      · obtain ⟨fs', hround⟩ := h.round_lost hd h₀ hn hnext hcheck
        obtain rfl := hdone _ hround
        have hmem := h.mem
        have hgot := h.gotsize
        by_cases hzero : fs.clusterBytes = 0
        · have hkept : Kept d fs r.endclust n := by
            apply kept_of_none (chain_of_check hcheck)
            exact fun hlost => hlost.1.ne' hzero
          rw [hzero, Nat.mul_zero] at hmem hgot
          refine ⟨_, .invalid hn hcheck, fun _ => ?_, fun _ => ?_, fun hnot =>
            absurd hkept hnot⟩
          · rw [hzero, hmem]
            rfl
          · rw [length_bytes, hzero, hgot, Nat.add_zero, BitVec.ofNat_toNat, BitVec.setWidth_eq]
        · have hpos := Nat.pos_of_ne_zero hzero
          have hlost : ¬ Kept d fs r.endclust n := fun hkept =>
            hkept.not_lost ⟨hpos, hn, hnext, hcheck⟩
          refine ⟨_, .invalid hn hcheck, fun hkept => absurd hkept hlost,
            fun hkept => absurd hkept hlost, fun _ => ?_⟩
          rw [length_bytes]
          dsimp only
          omega
      · obtain ⟨fs', _, hround⟩ := h.round_getit hd h₀ hn hnext
        rw [if_pos hcheck] at hround
        obtain rfl := hdone _ hround
        have hkept : Kept d fs r.endclust n := by
          apply kept_of_none (chain_of_check hcheck)
          exact fun hlost => hnext hlost.2.2.1
        refine ⟨_, .invalid hn hcheck, fun _ => rfl, fun _ => ?_, fun hnot => absurd hkept hnot⟩
        apply BitVec.eq_of_toNat_eq
        have htotal := h.total
        rw [length_bytes, h.gotsize_add hn, BitVec.toNat_ofNat, Nat.mod_eq_of_lt (by omega)]
    · obtain ⟨r', k', hround, hend, h'⟩ := h.round_next hd h₀ hn hcheck
      rw [hround] at hrun
      obtain ⟨rest, hreads, hmem, hret, hless⟩ := ih h' hrun
      rw [hend] at hreads hmem hret hless
      rw [← kept_next hn hcheck] at hmem hret hless
      refine ⟨_, .next hn hcheck hreads, fun hkept => ?_, fun hkept => ?_, fun hnot => ?_⟩
      · rw [hmem hkept, Memory.store_append, length_bytes]
      · rw [hret hkept, List.length_append, length_bytes, Nat.add_assoc]
      · have hlt := hless hnot
        rw [List.length_append, length_bytes]
        omega

/-- The rounds end if the reading of one cluster at a time does. -/
theorem Pending.ends (h : Pending image d fs r k m g n) (hd : d.Serves image)
    (h₀ : Cached d fs fs) {bytes : List Byte} (hreads : Reads image d fs r.endclust n bytes) :
  ∃ fuel res, Walk.run (next d) fuel (.inl r) = some (.inr res)
  := by
  have hstop : ∀ {r : Reading} {res : Contents}, round d r = .inr res →
      ∃ fuel res, Walk.run (next d) fuel (.inl r) = some (.inr res) := by
    intro r res hround
    use 2, res
    rw [Walk.run]
    change Walk.run (next d) 1 (round d r) = _
    rw [hround]
    rfl
  generalize hc : r.endclust = c at hreads
  induction hreads generalizing r k m g with
  | last hn =>
    obtain ⟨_, hround⟩ := h.round_last hd hn
    exact hstop hround
  | invalid hn hcheck =>
    subst hc
    by_cases hnext : fatent d fs r.endclust = r.endclust + 1
    · obtain ⟨_, hround⟩ := h.round_lost hd h₀ hn hnext hcheck
      exact hstop hround
    · obtain ⟨_, _, hround⟩ := h.round_getit hd h₀ hn hnext
      rw [if_pos hcheck] at hround
      exact hstop hround
  | next hn hcheck _ ih =>
    subst hc
    obtain ⟨r', k', hround, hend, h'⟩ := h.round_next hd h₀ hn hcheck
    obtain ⟨fuel, res, hrun⟩ := ih h' hend
    use fuel + 1, res
    rw [Walk.run]
    change Walk.run (next d) fuel (round d r) = _
    rwa [hround]

theorem Reads.unique {c : Word} {bytes bytes' : List Byte} (h : Reads image d fs c n bytes)
    (h' : Reads image d fs c n bytes') :
  bytes = bytes'
  := by
  induction h generalizing bytes' with
  | last hn =>
    cases h' with
    | last => rfl
    | invalid hlt _ => exact absurd hn (Nat.not_le.mpr hlt)
    | next hlt _ _ => exact absurd hn (Nat.not_le.mpr hlt)
  | invalid hlt hcheck =>
    cases h' with
    | last hn => exact absurd hn (Nat.not_le.mpr hlt)
    | invalid _ _ => rfl
    | next _ hnot _ => exact absurd hcheck hnot
  | next hlt hnot _ ih =>
    cases h' with
    | last hn => exact absurd hn (Nat.not_le.mpr hlt)
    | invalid _ hcheck => exact absurd hcheck hnot
    | next _ _ hrest => rw [ih hrest]

/-- The reading of one cluster at a time ends if a cluster has bytes. -/
theorem exists_reads (image : Sectors) (d : Disk) (hpos : 0 < fs.clusterBytes) (c : Word)
    (n : ℕ) :
  ∃ bytes, Reads image d fs c n bytes
  := by
  induction n using Nat.strong_induction_on generalizing c with
  | h n ih =>
    by_cases hn : n ≤ fs.clusterBytes
    · exact ⟨_, .last hn⟩
    · by_cases hcheck : checkClust (fatent d fs c) fs.fatsize
      · exact ⟨_, .invalid (Nat.lt_of_not_le hn) hcheck⟩
      · obtain ⟨rest, hrest⟩ := ih (n - fs.clusterBytes) (by omega) (fatent d fs c)
        exact ⟨_, .next (Nat.lt_of_not_le hn) hcheck hrest⟩

/-- No more is read than is to be read. -/
theorem Reads.length_le {c : Word} {bytes : List Byte} (h : Reads image d fs c n bytes) :
  bytes.length ≤ n
  := by
  induction h with
  | last hn => rw [length_bytes]
  | invalid hlt _ =>
    rw [length_bytes]
    exact hlt.le
  | next hlt _ _ ih =>
    rw [List.length_append, length_bytes]
    omega

/-- The rounds start at the first cluster, with nothing read. -/
theorem pending_start (image : Sectors) (mem : ℕ → Byte) (start : Word) (size : Word)
    (h₀ : Cached d fs fs) (hfits : Fits d fs start size.toNat) :
  Pending image d fs ⟨fs, mem, start, start, fs.bytesperclust, size, 0⟩ 0 mem 0 size.toNat
  := by
  constructor
  · exact h₀
  · exact (BitVec.add_zero _).symm
  · intro i hi
    cases hi
  · rw [toNat_bytesperclust, Nat.zero_add, Nat.one_mul]
  · rw [Nat.zero_mul, Nat.zero_add]
  · rw [Nat.zero_mul]
    rfl
  · rw [Nat.zero_mul]
    rfl
  · rw [Nat.zero_add]
    exact size.isLt
  · exact hfits

theorem getContents_eq_some {mem : ℕ → Byte} {start size maxsize : Word} {fuel : ℕ}
    {res : Contents} :
  getContents d fs mem start size maxsize fuel = some res
    ↔ Walk.run (next d) fuel
        (.inl ⟨fs, mem, start, start, fs.bytesperclust, limit size maxsize, 0⟩)
      = some (.inr res)
  := by
  rw [getContents, Option.bind_eq_some_iff]
  constructor
  · rintro ⟨s, hrun, hs⟩
    rw [hrun, Sum.getRight?_eq_some_iff.mp hs]
  · intro hrun
    exact ⟨_, hrun, rfl⟩

theorem kept_run {start : Word} (hrun : ∀ i < k, Follows d fs (start + BitVec.ofNat 32 i))
    (hlt : k * fs.clusterBytes < n) :
  Kept d fs start n ↔ Kept d fs (start + BitVec.ofNat 32 k) (n - k * fs.clusterBytes)
  := by
  induction k with
  | zero =>
    rw [Nat.zero_mul, Nat.sub_zero]
    exact Iff.of_eq (congrArg (Kept d fs · n) (BitVec.add_zero start).symm)
  | succ k ih =>
    rw [Nat.succ_mul] at hlt
    obtain ⟨hnext, hcheck⟩ := hrun k (Nat.lt_succ_self k)
    rw [ih (fun i hi => hrun i (by omega)) (by omega), kept_next (by omega) hcheck, hnext,
      ofNat_succ, Nat.succ_mul, Nat.sub_sub]

/-- Nothing is lost of a file of nearly 4 GiB whose clusters are found together. -/
theorem kept_of_not_fits {start : Word} (hn : n < 2 ^ 32) (h : ¬ Fits d fs start n) :
  Kept d fs start n
  := by
  simp only [Fits, not_forall, Nat.not_lt] at h
  obtain ⟨k, hlt, hrun, hle⟩ := h
  rw [Nat.succ_mul] at hle
  have hlast : n - k * fs.clusterBytes ≤ fs.clusterBytes := by omega
  rw [kept_run hrun hlt]
  apply kept_of_none (chain_of_le hlast)
  exact fun hlost => Nat.not_lt.mpr hlast hlost.2.1

/-- **`get_contents` reads what is read one cluster at a time** only if the table leads from no
cluster of the file to the next one where that is not a cluster of a file; and then it does, unless
clusters of 4 GiB are found together. -/
theorem readsFile_of_kept (mem : ℕ → Byte) (start size maxsize : Word) (hd : d.Serves image)
    (h₀ : Cached d fs fs) :
  (ReadsFile image d fs mem start size maxsize → Kept d fs start (limit size maxsize).toNat)
  ∧ (Kept d fs start (limit size maxsize).toNat → Fits d fs start (limit size maxsize).toNat →
      ReadsFile image d fs mem start size maxsize)
  := by
  constructor
  · intro hfile
    by_contra hkept
    have hfits : Fits d fs start (limit size maxsize).toNat := by
      by_contra hnot
      exact hkept (kept_of_not_fits (limit size maxsize).isLt hnot)
    have h := pending_start image mem start (limit size maxsize) h₀ hfits
    obtain ⟨s, hlost⟩ : ∃ s, Lost d fs s := by
      rw [Kept, not_forall] at hkept
      obtain ⟨s, hs⟩ := hkept
      rw [Classical.not_imp, not_not] at hs
      exact ⟨s, hs.2⟩
    obtain ⟨bytes, hreads⟩ := exists_reads image d hlost.1 start (limit size maxsize).toNat
    obtain ⟨fuel, res, hrun⟩ := h.ends hd h₀ hreads
    obtain ⟨bytes', hout⟩ := h.outcome hd h₀ hrun
    obtain ⟨bytes'', hreads', _, hret⟩ :=
      (hfile res.mem res.ret).mp ⟨fuel, res, getContents_eq_some.mpr hrun, rfl, rfl⟩
    obtain rfl := hreads.unique hout.reads
    obtain rfl := hreads.unique hreads'
    have hless := hout.less hkept
    have hle := hreads.length_le
    have hlt := (limit size maxsize).isLt
    rw [hret, BitVec.toNat_ofNat, Nat.mod_eq_of_lt (by omega)] at hless
    omega
  · intro hkept hfits mem' ret
    have h := pending_start image mem start (limit size maxsize) h₀ hfits
    constructor
    · rintro ⟨fuel, res, hrun, rfl, rfl⟩
      obtain ⟨bytes, hout⟩ := h.outcome hd h₀ (getContents_eq_some.mp hrun)
      use bytes, hout.reads, hout.mem hkept
      rw [hout.ret hkept, Nat.zero_add]
    · rintro ⟨bytes, hreads, rfl, rfl⟩
      obtain ⟨fuel, res, hrun⟩ := h.ends hd h₀ hreads
      obtain ⟨bytes', hout⟩ := h.outcome hd h₀ hrun
      obtain rfl := hreads.unique hout.reads
      use fuel, res, getContents_eq_some.mpr hrun, hout.mem hkept
      rw [hout.ret hkept, Nat.zero_add]

/-- The entry of a cluster is that of the table on the disk. -/
theorem fatent_eq {n : ℕ} (hd : d.Serves image) (hn : entriesPerBuf fs.fatsize = some n)
    (hempty : fs.fatbufnum = -1) (hlength : fs.fatlength ≠ 0) (c : Word) :
  fatent d fs c = BitVec.ofNat 32 (rawEntry fs.fatsize (image.table fs) c.toNat)
  := by
  have hholds : d.Holds image := by
    intro start n
    rw [hd]
    exact ⟨le_of_eq (length_bytes ..), fun _ => rfl⟩
  have hret : (fs.fetch d c).ret = fs.getsize := by rw [Fsdata.fetch, hd]
  have hmiss : fs.Misses c := by
    rw [Fsdata.Misses, hempty]
    exact part_ne hn
  rw [fatent, getFatent_of_read hn hmiss (by rw [hret]; omega)]
  exact entryAt_part hn fun i hi => fetched_eq hholds hlength hret hi

end Files

/-! ### Files of two clusters -/

/-- All entries of the table are 257. -/
theorem fatent_ones (c : Word) :
  fatent ones.disk fat16 c = 257
  := fatent_eq (disk_serves ones) (n := 1536) rfl rfl (by decide) c

/-- A file of 1000 bytes that goes on in the cluster 257. -/
theorem readsFile_of_kept_ones :
  ReadsFile ones ones.disk fat16 (fun _ => 0) 2 1000 0
  := by
  have hkept : Kept ones.disk fat16 2 (limit 1000 0).toNat := by
    rw [kept_next (by decide) (by rw [fatent_ones]; decide), fatent_ones]
    apply kept_of_none (chain_of_le (by decide))
    exact fun hlost => absurd hlost.2.1 (by decide)
  apply (readsFile_of_kept (fun _ => 0) 2 1000 0 (disk_serves ones) (cached_of_empty rfl)).2 hkept
  apply fits_of_le
  decide

/-- A disk on which all entries of a table with 16 bits are 0xfff0. -/
def ends : Sectors := fun _ i => if i % 2 = 0 then 0xf0 else 0xff

theorem fatent_ends :
  fatent ends.disk fat16 0xffef = 0xfff0
  := fatent_eq (disk_serves ends) (n := 1536) rfl rfl (by decide) _

/-- Nothing is read of a file whose first cluster is the one before 0xfff0. -/
theorem not_readsFile_ends :
  ¬ ReadsFile ends ends.disk fat16 (fun _ => 0) 0xffef 1000 0
  := by
  intro hfile
  have hfits : Fits ends.disk fat16 0xffef (1000 : Word).toNat := fits_of_le (by decide)
  have h := pending_start ends (fun _ => 0) 0xffef 1000 (cached_of_empty rfl) hfits
  have hcheck : checkClust (fatent ends.disk fat16 0xffef) fat16.fatsize := by
    rw [fatent_ends]
    decide
  have hreads : Reads ends ends.disk fat16 0xffef 1000 _ := .invalid (by decide) hcheck
  obtain ⟨fs', hround⟩ := h.round_lost (disk_serves ends) (cached_of_empty rfl) (by decide)
    fatent_ends hcheck
  have hrun : getContents ends.disk fat16 (fun _ => 0) 0xffef 1000 0 2
      = some ⟨fs', fun _ => 0, 0⟩ := by
    rw [getContents_eq_some, Walk.run]
    change Walk.run (next ends.disk) 1 (round ends.disk _) = _
    rw [show limit 1000 0 = 1000 by decide, hround]
    rfl
  obtain ⟨bytes, hreads', _, hret⟩ := (hfile (fun _ => 0) 0).mp ⟨2, _, hrun, rfl, rfl⟩
  obtain rfl := hreads.unique hreads'
  rw [length_bytes] at hret
  revert hret
  decide

end Fat
