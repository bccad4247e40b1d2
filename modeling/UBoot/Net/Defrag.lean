import UBoot.Lib.Links
import UBoot.Net.Net

/-!
# Putting fragments together

`__NetDefragment` of `net/net.c`, which is there with `CONFIG_IP_DEFRAG`.  It collects the
fragments of a packet in a buffer.  What is missing is a list of holes, and the descriptor of a
hole is in the buffer itself, at the place where the hole starts.
-/

namespace Defrag

open Net (ipHdrSizeNoUdp)

/-- `IP_PKTSIZE`: `CONFIG_NET_MAXDEFRAG`, and the size of the reply of an RPC. -/
def ipPktsize : ℕ := 16384 + 100

/-- `IP_MAXUDP`. -/
def ipMaxudp : ℕ := ipPktsize - ipHdrSizeNoUdp

/-- `IP_OFFS`. -/
def ipOffs : ℕ := 0x1fff

/-- `IP_FLAGS_MFRAG`. -/
def ipFlagsMfrag : ℕ := 0x2000

/-! ### Holes -/

/-- The members of `struct hole` that are used. -/
inductive Field where
  | lastByte
  | nextHole
  | prevHole
deriving DecidableEq

/-- Where a member is in the structure. -/
def Field.offset : Field → ℕ
  | lastByte => 0
  | nextHole => 2
  | prevHole => 4

/-- Where the hole of an index is in the buffer. -/
def payload (i : ℕ) : ℕ := ipHdrSizeNoUdp + 8 * i

/-- A half word of a buffer. -/
def half (m : ℕ → Byte) (p : ℕ) : ℕ := bytesHalf (Memory.read m p 2)

/-- A member of a hole. -/
def get (m : ℕ → Byte) (i : ℕ) (f : Field) : ℕ := half m (payload i + f.offset)

/-- The buffer with a member of a hole set. -/
def set (m : ℕ → Byte) (i : ℕ) (f : Field) (v : ℕ) : ℕ → Byte :=
  Memory.store m (payload i + f.offset) (halfBytes v)

/-- The buffer with a copy of a hole in the place of another one. -/
def copyHole (m : ℕ → Byte) (h newh : ℕ) : ℕ → Byte :=
  Memory.store m (payload newh) (Memory.read m (payload h) 8)

/-- The variables that are kept from one call to the next. -/
structure State where
  pktBuff : ℕ → Byte
  firstHole : ℕ
  totalLen : ℕ

/-- A new packet starts with one hole, which has no end. -/
def reset (s : State) (ip : ℕ → Byte) : State :=
  if s.totalLen = 0 ∨ half s.pktBuff 4 ≠ half ip 4 then
    let m := set s.pktBuff 0 .lastByte 0xffff
    let m := set m 0 .nextHole 0
    let m := set m 0 .prevHole 0
    { pktBuff := Memory.store m 0 (Memory.read ip 0 ipHdrSizeNoUdp)
      firstHole := 0
      totalLen := 0xffff }
  else s

/-- The first hole, from `h` on, that does not end before `start`, if there is one.  Indices have
16 bits, so that a list that is longer than the fuel has no end. -/
def findHole (m : ℕ → Byte) (start : ℕ) : ℕ → ℕ → Option (Option ℕ)
  | 0, _ => none
  | fuel + 1, h =>
    if get m h .lastByte < start then
      if get m h .nextHole = 0 then some none
      else findHole m start fuel (get m h .nextHole)
    else some (some h)

/-- A hole is gone.  The flag says that it was the last one. -/
def removeHole (s : State) (h : ℕ) : State × Bool :=
  let prev := get s.pktBuff h .prevHole
  let next := get s.pktBuff h .nextHole
  if prev = 0 ∧ next = 0 then (s, true)
  else if prev = 0 then
    ({ s with firstHole := next, pktBuff := set s.pktBuff next .prevHole 0 }, false)
  else if next = 0 then ({ s with pktBuff := set s.pktBuff prev .nextHole 0 }, false)
  else
    let m := set s.pktBuff next .prevHole prev
    ({ s with pktBuff := set m (get m h .prevHole) .nextHole (get m h .nextHole) }, false)

/-- A hole ends at `start`. -/
def shortenHole (s : State) (h start : ℕ) : State :=
  { s with pktBuff := set s.pktBuff h .lastByte start }

/-- A hole starts at `newh` instead. -/
def moveHole (s : State) (h newh : ℕ) : State :=
  let m := copyHole s.pktBuff h newh
  let m :=
    if get m newh .nextHole ≠ 0 then set m (get m newh .nextHole) .prevHole newh else m
  if get m newh .prevHole ≠ 0 then
    { s with pktBuff := set m (get m newh .prevHole) .nextHole newh }
  else { s with firstHole := newh, pktBuff := m }

/-- A hole ends at `start`, and another one from `newh` on is what remains. -/
def splitHole (s : State) (h newh start : ℕ) : State :=
  let m := copyHole s.pktBuff h newh
  let m := set m h .lastByte start
  let m := set m h .nextHole newh
  let m := set m newh .prevHole h
  { s with
    pktBuff :=
      if get m newh .nextHole ≠ 0 then set m (get m newh .nextHole) .prevHole newh else m }

/-- The list of holes without the `len` bytes from the index `offset8` on, which reach into the
hole `h`. -/
def fixHoles (s : State) (h offset8 : ℕ) (len : ℤ) : State × Bool :=
  let start := 8 * offset8
  let newh := (offset8 + len.tdiv 8).toNat
  if offset8 ≤ h ∧ get s.pktBuff h .lastByte ≤ start + len then removeHole s h
  else if get s.pktBuff h .lastByte ≤ start + len then (shortenHole s h start, false)
  else if offset8 ≤ h then (moveHole s h newh, false)
  else (splitHole s h newh start, false)

/-- The last fragment says how long the packet is. -/
def truncate (s : State) (ip : ℕ → Byte) (h : ℕ) (stop : ℤ) : State :=
  if half ip 6 &&& ipFlagsMfrag = 0 then
    { s with totalLen := stop.toNat, pktBuff := set s.pktBuff h .lastByte stop.toNat }
  else s

/-- A fragment that reaches into the hole `h` is put in its place.  The result is the length of
the packet in the buffer, if it is complete. -/
def placeFragment (s : State) (ip : ℕ → Byte) (h offset8 : ℕ) (len : ℤ) : State × Option ℕ :=
  let r := fixHoles (truncate s ip h (8 * offset8 + len)) h offset8 len
  let m := Memory.store r.1.pktBuff (payload offset8)
    (Memory.read ip ipHdrSizeNoUdp (len % 2 ^ 32).toNat)
  if r.2 then
    ({ r.1 with pktBuff := Memory.store m 2 (halfBytes r.1.totalLen) },
      some (r.1.totalLen + ipHdrSizeNoUdp))
  else ({ r.1 with pktBuff := m }, none)

/-- `__NetDefragment`.  There is no result if the function does not return.  The first comparison
is one of unsigned numbers. -/
def netDefragment (s : State) (ip : ℕ → Byte) : Option (State × Option ℕ) :=
  let offset8 := half ip 6 &&& ipOffs
  let start := 8 * offset8
  let len : ℤ := half ip 2 - ipHdrSizeNoUdp
  if (start + len) % 2 ^ 32 > ipMaxudp then some (s, none)
  else
    let s := reset s ip
    match findHole s.pktBuff start (2 ^ 16 + 1) s.firstHole with
    | none => none
    | some none => some (s, none)
    | some (some h) =>
      if offset8 + (len + 7).tdiv 8 ≤ h then some (s, none)
      else some (placeFragment s ip h offset8 len)

/-! ### What is in the buffer -/

section

variable {m : ℕ → Byte} {i j : ℕ}

theorem half_congr {m' : ℕ → Byte} {p : ℕ} (h : m' p = m p) (h' : m' (p + 1) = m (p + 1)) :
  half m' p = half m p
  := by
  simp only [half, Memory.read, h, h']

theorem half_store (m : ℕ → Byte) (p : ℕ) {v : ℕ} (hv : v < 2 ^ 16) :
  half (Memory.store m p (halfBytes v)) p = v
  := by
  have hread := Memory.read_store m p (halfBytes v)
  rw [length_halfBytes] at hread
  rw [half, hread]
  simpa using bytesHalf_halfBytes hv []

theorem half_store_of_disjoint {p q : ℕ} (ℓ : List Byte) (h : q + 2 ≤ p ∨ p + ℓ.length ≤ q) :
  half (Memory.store m p ℓ) q = half m q
  := by
  rcases h with h | h
  · apply half_congr
    · rw [Memory.store_of_lt _ (by omega)]
    · rw [Memory.store_of_lt _ (by omega)]
  · apply half_congr
    · rw [Memory.store_of_le _ (by omega)]
    · rw [Memory.store_of_le _ (by omega)]

theorem get_lt (m : ℕ → Byte) (i : ℕ) (f : Field) :
  get m i f < 2 ^ 16
  := by
  unfold get half
  apply bytesHalf_lt

theorem offset_le (f : Field) :
  f.offset + 2 ≤ 8
  := by
  cases f <;> decide

theorem get_set_self (m : ℕ → Byte) (i : ℕ) (f : Field) {v : ℕ} (hv : v < 2 ^ 16) :
  get (set m i f v) i f = v
  := by
  apply half_store m _ hv

theorem get_set_of_ne (v : ℕ) {f f' : Field} (h : j ≠ i ∨ f' ≠ f) :
  get (set m i f v) j f' = get m j f'
  := by
  apply half_store_of_disjoint
  rw [length_halfBytes]
  unfold payload
  have hf := offset_le f
  have hf' := offset_le f'
  by_cases hj : j = i
  · have hoffset : f.offset + 2 ≤ f'.offset ∨ f'.offset + 2 ≤ f.offset := by
      have hne := h.resolve_left (not_not_intro hj)
      cases f <;> cases f' <;> simp [Field.offset] at hne ⊢
    omega
  · omega

theorem get_copyHole_self (m : ℕ → Byte) (i j : ℕ) (f : Field) :
  get (copyHole m i j) j f = get m i f
  := by
  have hread : ∀ p < 8, copyHole m i j (payload j + p) = m (payload i + p) := by
    intro p hp
    have hholds := Memory.holds_store m (payload j) (Memory.read m (payload i) 8)
    rw [Memory.holds_iff_getElem] at hholds
    rw [copyHole, hholds p (by rw [Memory.length_read]; exact hp), Memory.getElem_read]
  have hf := offset_le f
  have h₁ := hread f.offset (by omega)
  have h₂ := hread (f.offset + 1) (by omega)
  simp only [get, half, Memory.read]
  rw [← Nat.add_assoc] at h₂
  rw [h₁, h₂]
  rfl

theorem get_copyHole_of_ne (f : Field) {k : ℕ} (h : k ≠ j) :
  get (copyHole m i j) k f = get m k f
  := by
  apply half_store_of_disjoint
  rw [Memory.length_read]
  unfold payload
  have hf := offset_le f
  omega

end

end Defrag
