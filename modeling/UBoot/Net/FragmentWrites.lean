import UBoot.Net.Reassembly

/-!
# Where fragments are written

What `__NetDefragment` writes to its buffer, for any sequence of fragments.  The descriptors of the
holes are in the buffer, where the payload of a fragment may be written over them: the writes stay
in the buffer as long as no fragment does that.
-/

namespace Defrag

open Net (ipHdrSizeNoUdp)

/-! ### The writes -/

/-- A write to the buffer: where, and what. -/
abbrev Write := ℕ × List Byte

/-- The buffer after some writes. -/
def applyAll (m : ℕ → Byte) (ws : List Write) : ℕ → Byte :=
  ws.foldl (fun m w => Memory.store m w.1 w.2) m

/-- A member of a hole is written. -/
def member (i : ℕ) (f : Field) (v : ℕ) : Write := (payload i + f.offset, halfBytes v)

/-- The writes of `reset`. -/
def resetWrites (s : State) (ip : ℕ → Byte) : List Write :=
  if s.totalLen = 0 ∨ half s.pktBuff 4 ≠ half ip 4 then
    [member 0 .lastByte 0xffff, member 0 .nextHole 0, member 0 .prevHole 0,
      (0, Memory.read ip 0 ipHdrSizeNoUdp)]
  else []

/-- The writes of `removeHole`. -/
def removeWrites (s : State) (h : ℕ) : List Write :=
  let prev := get s.pktBuff h .prevHole
  let next := get s.pktBuff h .nextHole
  if prev = 0 ∧ next = 0 then []
  else if prev = 0 then [member next .prevHole 0]
  else if next = 0 then [member prev .nextHole 0]
  else
    let m := set s.pktBuff next .prevHole prev
    [member next .prevHole prev, member (get m h .prevHole) .nextHole (get m h .nextHole)]

/-- The writes of `moveHole`. -/
def moveWrites (s : State) (h newh : ℕ) : List Write :=
  let m := copyHole s.pktBuff h newh
  let ws :=
    if get m newh .nextHole ≠ 0 then [member (get m newh .nextHole) .prevHole newh] else []
  let m := applyAll m ws
  (payload newh, Memory.read s.pktBuff (payload h) 8) :: ws
    ++ if get m newh .prevHole ≠ 0 then [member (get m newh .prevHole) .nextHole newh] else []

/-- The writes of `splitHole`. -/
def splitWrites (s : State) (h newh start : ℕ) : List Write :=
  let m := splitMem s.pktBuff h newh start
  [(payload newh, Memory.read s.pktBuff (payload h) 8), member h .lastByte start,
      member h .nextHole newh, member newh .prevHole h]
    ++ if get m newh .nextHole ≠ 0 then [member (get m newh .nextHole) .prevHole newh] else []

/-- The writes of `fixHoles`. -/
def fixWrites (s : State) (h offset8 : ℕ) (len : ℤ) : List Write :=
  let start := 8 * offset8
  let newh := (offset8 + len.tdiv 8).toNat
  if offset8 ≤ h ∧ get s.pktBuff h .lastByte ≤ start + len then removeWrites s h
  else if get s.pktBuff h .lastByte ≤ start + len then [member h .lastByte start]
  else if offset8 ≤ h then moveWrites s h newh
  else splitWrites s h newh start

/-- The writes of `truncate`. -/
def truncateWrites (ip : ℕ → Byte) (h : ℕ) (stop : ℤ) : List Write :=
  if half ip 6 &&& ipFlagsMfrag = 0 then [member h .lastByte stop.toNat] else []

/-- The writes of `placeFragment`. -/
def placeWrites (s : State) (ip : ℕ → Byte) (h offset8 : ℕ) (len : ℤ) : List Write :=
  let t := truncate s ip h (8 * offset8 + len)
  let r := fixHoles t h offset8 len
  truncateWrites ip h (8 * offset8 + len) ++ fixWrites t h offset8 len
    ++ [(payload offset8, Memory.read ip ipHdrSizeNoUdp (len % 2 ^ 32).toNat)]
    ++ if r.2 then [(2, halfBytes r.1.totalLen)] else []

/-- The index of the first byte of a fragment, in units of 8 bytes. -/
def offset8 (ip : ℕ → Byte) : ℕ := half ip 6 &&& ipOffs

/-- The length of the payload of a fragment, as the code computes it. -/
def fragLen (ip : ℕ → Byte) : ℤ := half ip 2 - ipHdrSizeNoUdp

/-- The fragment extends too far. -/
def TooLong (ip : ℕ → Byte) : Prop :=
  ((8 * offset8 ip : ℕ) + fragLen ip) % 2 ^ 32 > ipMaxudp

instance (ip : ℕ → Byte) : Decidable (TooLong ip) := inferInstanceAs (Decidable (_ > _))

/-- The hole that a fragment is put in, if it is. -/
def reached (s : State) (ip : ℕ → Byte) : Option ℕ :=
  if TooLong ip then none
  else
    (findHole (reset s ip).pktBuff (8 * offset8 ip) (2 ^ 16 + 1)
      (reset s ip).firstHole).join.filter fun h => ¬ offset8 ip + (fragLen ip + 7).tdiv 8 ≤ h

/-- The writes of `__NetDefragment`. -/
def defragmentWrites (s : State) (ip : ℕ → Byte) : List Write :=
  if TooLong ip then []
  else resetWrites s ip
    ++ ((reached s ip).map fun h => placeWrites (reset s ip) ip h (offset8 ip) (fragLen ip)).getD []

/-! ### What is asked of the fragments -/

/-- The holes from an index on. -/
def holesFrom (m : ℕ → Byte) : ℕ → ℕ → List Hole
  | 0, _ => []
  | fuel + 1, i =>
    ⟨i, get m i .lastByte⟩
      :: if get m i .nextHole = 0 then [] else holesFrom m fuel (get m i .nextHole)

/-- The list of holes in the buffer. -/
def holes (s : State) : List Hole := holesFrom s.pktBuff (2 ^ 16) s.firstHole

/-- The variables of the function, and if the packet in the buffer was returned. -/
structure Buffer where
  state : State
  complete : Bool

/-- A call for a fragment. -/
def call (b : Buffer) (ip : ℕ → Byte) : Option Buffer :=
  (netDefragment b.state ip).map fun r =>
    ⟨r.1, if TooLong ip then b.complete else r.2.isSome⟩

/-- The walk along the list ends, all writes are in the buffer, and the length that is copied is
not negative. -/
structure Safe (b : Buffer) (ip : ℕ → Byte) : Prop where
  ends : (netDefragment b.state ip).isSome
  within : ∀ w ∈ defragmentWrites b.state ip, w.1 + w.2.length ≤ ipPktsize
  copied : (reached b.state ip).isSome → 0 ≤ fragLen ip

/-- The condition for a fragment that is put in the hole `h`, with other holes behind it: it does
not reach over the beginning of the next hole, and where something of the hole remains behind it,
there is room for a descriptor that the payload does not touch. -/
structure PlacedFine (ip : ℕ → Byte) (h : Hole) (post : List Hole) : Prop where
  nonneg : 0 ≤ fragLen ip
  next : ∀ n ∈ post.head?, 8 * offset8 ip + fragLen ip ≤ 8 * n.first
  back : half ip 6 &&& ipFlagsMfrag ≠ 0 → 8 * offset8 ip + fragLen ip < h.last →
    8 ∣ fragLen ip ∧ 8 * offset8 ip + fragLen ip + 8 ≤ ipMaxudp

/-- The condition for a call: the packet in the buffer was not returned before, and a fragment that
reaches a hole is fine. -/
structure CallFine (b : Buffer) (ip : ℕ → Byte) : Prop where
  incomplete : ¬ TooLong ip → b.complete = true → Fresh (half ip 4) b.state
  placed : ¬ TooLong ip → ∀ h post,
    (holes (reset b.state ip)).dropWhile (fun x => x.last < 8 * offset8 ip) = h :: post →
      h.first < offset8 ip + (fragLen ip + 7).tdiv 8 → PlacedFine ip h post

/-- What `NetReceive` asks of a header before the call, for a fragment. -/
structure Accepted (ip : ℕ → Byte) : Prop where
  version : ip 0 &&& 0xf0 = 0x40
  options : ip 0 &&& 0x0f ≤ 5
  checksum : Net.netCksumOk (Memory.read ip 0 ipHdrSizeNoUdp)
  fragment : half ip 6 &&& (ipOffs ||| ipFlagsMfrag) ≠ 0

/-! ### What the writes do -/

section Writes

variable {s : State} {ip : ℕ → Byte} {h newh : ℕ}

theorem applyAll_append (m : ℕ → Byte) (ws ws' : List Write) :
  applyAll m (ws ++ ws') = applyAll (applyAll m ws) ws'
  := List.foldl_append

theorem applyAll_reset (s : State) (ip : ℕ → Byte) :
  (reset s ip).pktBuff = applyAll s.pktBuff (resetWrites s ip)
  := by
  rw [reset, resetWrites]
  split
  · rfl
  · rfl

theorem applyAll_remove (s : State) (h : ℕ) :
  (removeHole s h).1.pktBuff = applyAll s.pktBuff (removeWrites s h)
  := by
  dsimp only [removeHole, removeWrites]
  split
  · rfl
  split
  · rfl
  split
  · rfl
  · rfl

theorem applyAll_move (s : State) (h newh : ℕ) :
  (moveHole s h newh).pktBuff = applyAll s.pktBuff (moveWrites s h newh)
  := by
  have hfirst : applyAll (copyHole s.pktBuff h newh)
        (if get (copyHole s.pktBuff h newh) newh .nextHole ≠ 0 then
          [member (get (copyHole s.pktBuff h newh) newh .nextHole) .prevHole newh] else [])
      = if get (copyHole s.pktBuff h newh) newh .nextHole ≠ 0 then
          set (copyHole s.pktBuff h newh) (get (copyHole s.pktBuff h newh) newh .nextHole)
            .prevHole newh
        else copyHole s.pktBuff h newh := by
    split
    · rfl
    · rfl
  rw [moveHole, moveWrites, applyAll_append]
  change _ = applyAll (applyAll (copyHole s.pktBuff h newh) _) _
  rw [hfirst]
  generalize (if get (copyHole s.pktBuff h newh) newh .nextHole ≠ 0 then
    set (copyHole s.pktBuff h newh) (get (copyHole s.pktBuff h newh) newh .nextHole) .prevHole newh
    else copyHole s.pktBuff h newh) = m
  split
  · rfl
  · rfl

theorem applyAll_split (s : State) (h newh start : ℕ) :
  (splitHole s h newh start).pktBuff = applyAll s.pktBuff (splitWrites s h newh start)
  := by
  rw [splitWrites, applyAll_append]
  change _ = applyAll (splitMem s.pktBuff h newh start) _
  dsimp only [splitHole]
  change (if get (splitMem s.pktBuff h newh start) newh .nextHole ≠ 0 then _
    else splitMem s.pktBuff h newh start) = _
  split
  · rfl
  · rfl

theorem applyAll_fix (s : State) (h offset8 : ℕ) (len : ℤ) :
  (fixHoles s h offset8 len).1.pktBuff = applyAll s.pktBuff (fixWrites s h offset8 len)
  := by
  dsimp only [fixHoles, fixWrites]
  split
  · apply applyAll_remove
  split
  · rfl
  split
  · apply applyAll_move
  · apply applyAll_split

theorem applyAll_place (s : State) (ip : ℕ → Byte) (h offset8 : ℕ) (len : ℤ) :
  (placeFragment s ip h offset8 len).1.pktBuff
    = applyAll s.pktBuff (placeWrites s ip h offset8 len)
  := by
  have htruncate : (truncate s ip h (8 * offset8 + len)).pktBuff
      = applyAll s.pktBuff (truncateWrites ip h (8 * offset8 + len)) := by
    rw [truncate, truncateWrites]
    split
    · rfl
    · rfl
  dsimp only [placeWrites]
  rw [applyAll_append, applyAll_append, applyAll_append, ← htruncate, ← applyAll_fix,
    placeFragment]
  dsimp only
  split
  · rfl
  · rfl

/-- What a call returns. -/
theorem netDefragment_eq (s : State) (ip : ℕ → Byte) :
  netDefragment s ip
    = if TooLong ip then some (s, none)
      else (findHole (reset s ip).pktBuff (8 * offset8 ip) (2 ^ 16 + 1)
        (reset s ip).firstHole).map fun _ =>
          ((reached s ip).map fun h =>
            placeFragment (reset s ip) ip h (offset8 ip) (fragLen ip)).getD (reset s ip, none)
  := by
  by_cases htoo : TooLong ip
  · rw [if_pos htoo]
    exact if_pos htoo
  rw [if_neg htoo, reached, if_neg htoo]
  have hlong : ¬ ((8 * (half ip 6 &&& ipOffs) : ℕ) + ((half ip 2 : ℤ) - ipHdrSizeNoUdp)) % 2 ^ 32
      > ipMaxudp := htoo
  rw [netDefragment]
  dsimp only
  rw [if_neg hlong]
  cases hfind : findHole (reset s ip).pktBuff (8 * (half ip 6 &&& ipOffs)) (2 ^ 16 + 1)
    (reset s ip).firstHole with
  | none =>
    rw [offset8, hfind]
    rfl
  | some found =>
    rw [offset8, hfind]
    cases found with
    | none => rfl
    | some h =>
      rw [Option.map_some, Option.join_some, Option.filter_some]
      dsimp only
      split
      case isTrue hdup =>
        rw [if_neg]
        · rfl
        · rw [decide_eq_true_eq]
          exact not_not.mpr hdup
      case isFalse hdup =>
        have hnew : decide (¬ ((half ip 6 &&& ipOffs : ℕ) : ℤ) + (fragLen ip + 7).tdiv 8 ≤ h)
            = true := decide_eq_true hdup
        rw [if_pos hnew]
        rfl

/-- **The writes of a call** are what happens to the buffer. -/
theorem applyAll_netDefragment {r : State × Option ℕ} (hr : netDefragment s ip = some r) :
  r.1.pktBuff = applyAll s.pktBuff (defragmentWrites s ip)
  := by
  rw [netDefragment_eq] at hr
  rw [defragmentWrites]
  split at hr
  case isTrue htoo =>
    obtain rfl := Option.some.inj hr
    rw [if_pos htoo]
    rfl
  case isFalse htoo =>
    obtain ⟨_, _, rfl⟩ := Option.map_eq_some_iff.mp hr
    rw [if_neg htoo, applyAll_append, ← applyAll_reset]
    cases reached s ip with
    | none => rfl
    | some h => apply applyAll_place

end Writes

/-! ### Descriptors that are written -/

section Descriptors

/-- The write is one to the descriptor `i`. -/
def InDescriptor (w : Write) (i : ℕ) : Prop :=
  payload i ≤ w.1 ∧ w.1 + w.2.length ≤ payload i + 8

theorem inDescriptor_member (i : ℕ) (f : Field) (v : ℕ) :
  InDescriptor (member i f v) i
  := by
  have hf := offset_le f
  refine ⟨Nat.le_add_right _ _, ?_⟩
  rw [member, length_halfBytes]
  omega

/-- A whole descriptor is written. -/
theorem inDescriptor_copy (m : ℕ → Byte) (h newh : ℕ) :
  InDescriptor (payload newh, Memory.read m (payload h) 8) newh
  := ⟨le_rfl, by rw [Memory.length_read]⟩

variable {s : State} {h newh start : ℕ} {w : Write}

/-- Every other member is what it was, or it is what was written. -/
theorem get_set_eq_or (m : ℕ → Byte) (i j : ℕ) (f f' : Field) {v : ℕ} (hv : v < 2 ^ 16) :
  get (set m i f v) j f' = v ∨ get (set m i f v) j f' = get m j f'
  := by
  by_cases heq : j ≠ i ∨ f' ≠ f
  · exact .inr (get_set_of_ne v heq)
  · rw [not_or, not_not, not_not] at heq
    obtain ⟨rfl, rfl⟩ := heq
    exact .inl (get_set_self m j f' hv)

theorem mem_removeWrites (hw : w ∈ removeWrites s h) :
  InDescriptor w (get s.pktBuff h .prevHole) ∨ InDescriptor w (get s.pktBuff h .nextHole)
  := by
  have hprev := get_lt s.pktBuff h .prevHole
  dsimp only [removeWrites] at hw
  split at hw
  · exact absurd hw List.not_mem_nil
  split at hw
  · obtain rfl := List.mem_singleton.mp hw
    exact .inr (inDescriptor_member _ _ _)
  split at hw
  · obtain rfl := List.mem_singleton.mp hw
    exact .inl (inDescriptor_member _ _ _)
  · obtain rfl | hw := List.mem_cons.mp hw
    · exact .inr (inDescriptor_member _ _ _)
    · obtain rfl := List.mem_singleton.mp hw
      left
      have hsame : get (set s.pktBuff (get s.pktBuff h .nextHole) .prevHole
          (get s.pktBuff h .prevHole)) h .prevHole = get s.pktBuff h .prevHole :=
        (get_set_eq_or _ _ _ _ _ hprev).elim id id
      rw [hsame]
      exact inDescriptor_member _ _ _

theorem mem_moveWrites (hnew : newh < 2 ^ 16) (hw : w ∈ moveWrites s h newh) :
  InDescriptor w newh ∨ InDescriptor w (get s.pktBuff h .nextHole)
    ∨ InDescriptor w (get s.pktBuff h .prevHole)
  := by
  have hprev : get (applyAll (copyHole s.pktBuff h newh)
        (if get s.pktBuff h .nextHole ≠ 0 then
          [member (get s.pktBuff h .nextHole) .prevHole newh] else [])) newh .prevHole = newh
      ∨ get (applyAll (copyHole s.pktBuff h newh)
        (if get s.pktBuff h .nextHole ≠ 0 then
          [member (get s.pktBuff h .nextHole) .prevHole newh] else [])) newh .prevHole
        = get s.pktBuff h .prevHole := by
    rw [← get_copyHole_self s.pktBuff h newh .prevHole]
    split
    · apply get_set_eq_or _ _ _ _ _ hnew
    · exact .inr rfl
  rw [moveWrites, get_copyHole_self] at hw
  obtain hw | hw := List.mem_append.mp hw
  · obtain rfl | hw := List.mem_cons.mp hw
    · exact .inl (inDescriptor_copy _ _ _)
    · obtain rfl := List.mem_singleton.mp (List.mem_ite_nil_right.mp hw).2
      exact .inr (.inl (inDescriptor_member _ _ _))
  · obtain rfl := List.mem_singleton.mp (List.mem_ite_nil_right.mp hw).2
    obtain heq | heq := hprev
    · left
      rw [heq]
      apply inDescriptor_member
    · right; right
      rw [heq]
      apply inDescriptor_member

theorem mem_splitWrites (hnew : newh < 2 ^ 16) (hw : w ∈ splitWrites s h newh start) :
  InDescriptor w newh ∨ InDescriptor w (get s.pktBuff h .nextHole) ∨ InDescriptor w h
  := by
  have hnext : get (splitMem s.pktBuff h newh start) newh .nextHole = newh
      ∨ get (splitMem s.pktBuff h newh start) newh .nextHole = get s.pktBuff h .nextHole := by
    rw [splitMem, get_set_of_ne _ (.inr nextHole_ne_prevHole)]
    rw [← get_copyHole_self s.pktBuff h newh .nextHole]
    rw [← @get_set_of_ne (copyHole s.pktBuff h newh) h newh start .lastByte .nextHole
      (.inr (by decide))]
    apply get_set_eq_or _ _ _ _ _ hnew
  rw [splitWrites] at hw
  obtain hw | hw := List.mem_append.mp hw
  · obtain rfl | hw := List.mem_cons.mp hw
    · exact .inl (inDescriptor_copy _ _ _)
    obtain rfl | hw := List.mem_cons.mp hw
    · exact .inr (.inr (inDescriptor_member _ _ _))
    obtain rfl | hw := List.mem_cons.mp hw
    · exact .inr (.inr (inDescriptor_member _ _ _))
    · obtain rfl := List.mem_singleton.mp hw
      exact .inl (inDescriptor_member _ _ _)
  · obtain rfl := List.mem_singleton.mp (List.mem_ite_nil_right.mp hw).2
    obtain heq | heq := hnext
    · left
      rw [heq]
      apply inDescriptor_member
    · right; left
      rw [heq]
      apply inDescriptor_member

/-- The descriptors that `fixHoles` writes: the one of the hole, the ones it is linked to, and the
one of what remains behind the fragment. -/
theorem mem_fixWrites {offset8 len : ℕ}
    (hnew : 8 * offset8 + len < get s.pktBuff h .lastByte → offset8 + len / 8 < 2 ^ 16)
    (hw : w ∈ fixWrites s h offset8 len) :
  InDescriptor w h ∨ InDescriptor w (get s.pktBuff h .nextHole)
    ∨ InDescriptor w (get s.pktBuff h .prevHole)
    ∨ 8 * offset8 + len < get s.pktBuff h .lastByte ∧ InDescriptor w (offset8 + len / 8)
  := by
  have hnewh : ((offset8 : ℤ) + (len : ℤ).tdiv 8).toNat = offset8 + len / 8 := by
    rw [Int.tdiv_eq_ediv_of_nonneg (by omega)]
    omega
  dsimp only [fixWrites] at hw
  rw [hnewh] at hw
  split at hw
  · obtain hw | hw := mem_removeWrites hw
    · exact .inr (.inr (.inl hw))
    · exact .inr (.inl hw)
  split at hw
  · obtain rfl := List.mem_singleton.mp hw
    exact .inl (inDescriptor_member _ _ _)
  case isFalse hlast =>
    have hlt : 8 * offset8 + len < get s.pktBuff h .lastByte := by omega
    split at hw
    · obtain hw | hw | hw := mem_moveWrites (hnew hlt) hw
      · exact .inr (.inr (.inr ⟨hlt, hw⟩))
      · exact .inr (.inl hw)
      · exact .inr (.inr (.inl hw))
    · obtain hw | hw | hw := mem_splitWrites (hnew hlt) hw
      · exact .inr (.inr (.inr ⟨hlt, hw⟩))
      · exact .inr (.inl hw)
      · exact .inl hw

end Descriptors

/-! ### A list in the buffer -/

/-- The holes are one behind the other, and their descriptors are in the buffer. -/
structure Sound (s : State) (hs : List Hole) : Prop where
  ne : hs ≠ []
  linked : Linked s hs
  apart : hs.Pairwise fun a b => a.first < b.first ∧ a.last ≤ 8 * b.first
  le : ∀ h ∈ hs, 8 * h.first ≤ h.last
  fits : ∀ h ∈ hs, 8 * h.first + 8 ≤ ipMaxudp

section Sound

variable {s : State} {hs pre post : List Hole} {h : Hole} {ip : ℕ → Byte}

theorem Sound.ordered (hsound : Sound s hs) :
  Ordered hs
  := by
  constructor
  · apply List.pairwise_map.mpr
    apply hsound.apart.imp
    exact fun hab => hab.1
  · intro i hi
    obtain ⟨x, hx, rfl⟩ := List.mem_map.mp hi
    have hfits := hsound.fits x hx
    rw [ipMaxudp, ipPktsize] at hfits
    omega

/-- The list that is read in the buffer. -/
theorem holesFrom_eq {fuel p : ℕ}
    (hseg : Links.Seg (get s.pktBuff · .nextHole) (get s.pktBuff · .prevHole) p (indices hs) 0)
    (hlast : ∀ x ∈ hs, get s.pktBuff x.first .lastByte = x.last)
    (htail : ∀ i ∈ (indices hs).tail, i ≠ 0) (hne : hs ≠ []) (hfuel : hs.length ≤ fuel) :
  holesFrom s.pktBuff fuel ((indices hs).headD 0) = hs
  := by
  induction hs generalizing fuel p with
  | nil => exact absurd rfl hne
  | cons a hs ih =>
    obtain ⟨fuel, rfl⟩ := Nat.exists_eq_add_one_of_ne_zero (Nat.ne_of_gt
      (Nat.lt_of_lt_of_le (Nat.succ_pos _) hfuel))
    obtain ⟨hnext, _, hseg⟩ := hseg
    replace hnext : get s.pktBuff a.first .nextHole = (indices hs).headD 0 := hnext
    rw [indices_cons, List.headD_cons, holesFrom, hlast a List.mem_cons_self, hnext]
    apply congrArg (a :: ·)
    cases hs with
    | nil => exact if_pos rfl
    | cons b hs =>
      rw [indices_cons, List.headD_cons, if_neg (htail b.first List.mem_cons_self)]
      apply ih hseg
      · exact fun x hx => hlast x (List.mem_cons_of_mem a hx)
      · exact fun i hi => htail i (List.mem_cons_of_mem b.first hi)
      · exact List.cons_ne_nil _ _
      · exact Nat.le_of_succ_le_succ hfuel

theorem Sound.holes_eq (hsound : Sound s hs) :
  holes s = hs
  := by
  rw [holes, hsound.linked.first]
  have hlength := hsound.ordered.length_le
  rw [indices, List.length_map] at hlength
  exact holesFrom_eq hsound.linked.links hsound.linked.last hsound.ordered.tail_ne hsound.ne hlength

/-- A new packet is one hole. -/
theorem sound_reset (hfresh : Fresh (half ip 4) s) :
  Sound (reset s ip) [⟨0, 0xffff⟩]
  := by
  refine ⟨List.cons_ne_nil _ _, hfresh.linked, List.pairwise_singleton _ _, ?_, ?_⟩
  · intro h hh
    rw [List.mem_singleton.mp hh]
    exact Nat.zero_le _
  · intro h hh
    rw [List.mem_singleton.mp hh]
    decide

/-- A list that begins with a hole, where the one in front of it is not known. -/
theorem Linked.forget (hlinked : Linked s (pre ++ h :: post))
    (hzero : (indices pre).getLastD 0 = 0) :
  Linked { s with firstHole := h.first } (h :: post)
  := by
  obtain ⟨_, hnext, hprev, hseg⟩ := hlinked.split
  refine ⟨rfl, ⟨hnext, hprev.trans hzero, hseg⟩, ?_⟩
  intro x hx
  exact hlinked.last x (List.mem_append_right _ hx)

/-- A hole that knows of none in front of it is taken for the first one. -/
theorem fixHoles_forget {i offset8 : ℕ} {len : ℤ} (hle : offset8 ≤ i)
    (hprev : get s.pktBuff i .prevHole = 0)
    (hne : ¬ get s.pktBuff i .lastByte ≤ ((8 * offset8 : ℕ) : ℤ) + len →
      get s.pktBuff i .nextHole ≠ (offset8 + len.tdiv 8).toNat) :
  (fixHoles s i offset8 len).2 = true
    ∨ fixHoles s i offset8 len = fixHoles { s with firstHole := i } i offset8 len
  := by
  dsimp only [fixHoles]
  split
  · by_cases hnext : get s.pktBuff i .nextHole = 0
    · left
      rw [removeHole]
      dsimp only
      rw [if_pos ⟨hprev, hnext⟩]
    · right
      have hnonzero : ¬ (get s.pktBuff i .prevHole = 0 ∧ get s.pktBuff i .nextHole = 0) :=
        fun hboth => hnext hboth.2
      rw [removeHole_eq s i hnonzero, removeHole_eq { s with firstHole := i } i hnonzero,
        if_pos hprev, if_pos hprev]
  case isFalse hboth =>
    have hlast : ¬ get s.pktBuff i .lastByte ≤ ((8 * offset8 : ℕ) : ℤ) + len :=
      fun hlast => hboth ⟨hle, hlast⟩
    right
    rw [if_neg hlast, if_neg hlast]
    have hne' := hne hlast
    rw [moveHole_eq s hne', moveHole_eq { s with firstHole := i } hne', if_pos hprev,
      if_pos hprev]

/-- What happens to the list: if the hole in front is taken for none, it is lost. -/
theorem fixHoles_linked {offset8 len : ℕ} (hlinked : Linked s (pre ++ h :: post))
    (hord : Ordered (pre ++ h :: post)) (hstart : 8 * offset8 < 2 ^ 16)
    (hnew : 8 * offset8 + len < h.last → offset8 + len / 8 < 2 ^ 16
      ∧ offset8 + len / 8 ∉ indices (pre ++ h :: post) ∧ offset8 + len / 8 ≠ 0) :
  (fixHoles s h.first offset8 len).2 = true
    ∨ (fixHoles s h.first offset8 len).2 = false
      ∧ ∃ pre', List.Sublist pre' pre ∧ pre' ++ cutAt h offset8 len ++ post ≠ []
        ∧ Linked (fixHoles s h.first offset8 len).1 (pre' ++ cutAt h offset8 len ++ post)
  := by
  by_cases hlost : offset8 ≤ h.first ∧ (indices pre).getLastD 0 = 0
  · have hlinked' := hlinked.forget hlost.2
    have hord' : Ordered (h :: post) := by
      constructor
      · have hsorted := hord.sorted
        rw [indices_append] at hsorted
        exact (List.pairwise_append.mp hsorted).2.1
      · intro i hi
        apply hord.lt
        rw [indices_append]
        exact List.mem_append_right _ hi
    obtain ⟨_, hnext, hprev, _⟩ := hlinked.split
    have hlast : get s.pktBuff h.first .lastByte = h.last := hlinked.last h (by simp)
    have hnewh : ((offset8 : ℤ) + (len : ℤ).tdiv 8).toNat = offset8 + len / 8 := by
      rw [Int.tdiv_eq_ediv_of_nonneg (by omega)]
      omega
    have hne : ¬ (get s.pktBuff h.first .lastByte : ℤ) ≤ ((8 * offset8 : ℕ) : ℤ) + len →
        get s.pktBuff h.first .nextHole ≠ ((offset8 : ℤ) + (len : ℤ).tdiv 8).toNat := by
      intro hlt heq
      rw [hlast] at hlt
      obtain ⟨_, hmem, hzero⟩ := hnew (by omega)
      rw [hnewh, hnext] at heq
      apply hmem
      rw [← heq] at hzero ⊢
      exact next_mem pre h hzero
    obtain hdone | heq := fixHoles_forget hlost.1 (hprev.trans hlost.2) hne
    · exact .inl hdone
    · rw [heq]
      have hnew' : 8 * offset8 + len < h.last → offset8 + len / 8 < 2 ^ 16
          ∧ offset8 + len / 8 ∉ indices ([] ++ h :: post) ∧ offset8 + len / 8 ≠ 0 := by
        intro hlt
        obtain ⟨hlt', hmem, hzero⟩ := hnew hlt
        refine ⟨hlt', fun hin => hmem ?_, hzero⟩
        rw [indices_append]
        exact List.mem_append_right _ hin
      obtain ⟨_, hdone⟩ | ⟨hnonempty, hdone, _, hresult, _⟩ :=
        @fixHoles_spec _ [] post h offset8 len hlinked' hord' (fun _ hnil => absurd rfl hnil)
          hstart hnew'
      · rw [hdone]
        exact .inl rfl
      · exact .inr ⟨hdone, [], List.nil_sublist _, hnonempty, hresult⟩
  · have hprev : offset8 ≤ h.first → pre ≠ [] → (indices pre).getLastD 0 ≠ 0 :=
      fun hle _ hzero => hlost ⟨hle, hzero⟩
    obtain ⟨_, hdone⟩ | ⟨hne, hdone, _, hlinked', _⟩ :=
      fixHoles_spec offset8 len hlinked hord hprev hstart hnew
    · rw [hdone]
      exact .inl rfl
    · exact .inr ⟨hdone, pre, List.Sublist.refl _, hne, hlinked'⟩

/-! ### A fragment in its place -/

/-- The hole, once it is known that no more fragments follow. -/
def shortened (ip : ℕ → Byte) (h : Hole) (stop : ℕ) : Hole :=
  ⟨h.first, if half ip 6 &&& ipFlagsMfrag = 0 then stop else h.last⟩

theorem Linked.truncate (hlinked : Linked s (pre ++ h :: post))
    (hord : Ordered (pre ++ h :: post)) {stop : ℕ} (hstop : stop < 2 ^ 16) :
  Linked (truncate s ip h.first stop) (pre ++ shortened ip h stop :: post)
  := by
  rw [Defrag.truncate, shortened]
  split
  · exact { hlinked.setLast hord hstop with }
  · exact hlinked

/-- A fragment of `n` bytes, from the index `o` on, that is put in the hole `h`. -/
structure Placed (ip : ℕ → Byte) (pre : List Hole) (h : Hole) (post : List Hole) (o n : ℕ) :
    Prop where
  before : ∀ x ∈ pre, x.last < 8 * o
  reaches : h.first < o + (n + 7) / 8
  long : 8 * o + n ≤ ipMaxudp
  next : ∀ b ∈ post.head?, 8 * o + n ≤ 8 * b.first
  back : half ip 6 &&& ipFlagsMfrag ≠ 0 → 8 * o + n < h.last →
    8 ∣ n ∧ 8 * o + n + 8 ≤ ipMaxudp

variable {o n : ℕ}

/-- What remains behind the fragment. -/
theorem Placed.back_of_lt (hplaced : Placed ip pre h post o n)
    (hlt : 8 * o + n < (shortened ip h (8 * o + n)).last) :
  (shortened ip h (8 * o + n)).last = h.last ∧ 8 * (o + n / 8) = 8 * o + n
    ∧ 8 * o + n < h.last ∧ 8 * o + n + 8 ≤ ipMaxudp ∧ h.first < o + n / 8
  := by
  have hreaches := hplaced.reaches
  rw [shortened] at hlt ⊢
  dsimp only at hlt ⊢
  split at hlt
  · exact absurd hlt (Nat.lt_irrefl _)
  case isFalse hmore =>
    obtain ⟨⟨k, rfl⟩, hfits⟩ := hplaced.back hmore hlt
    rw [if_neg hmore]
    refine ⟨rfl, ?_, hlt, hfits, ?_⟩
    all_goals omega

theorem Sound.next_le (hsound : Sound s (pre ++ h :: post)) (hplaced : Placed ip pre h post o n) :
  ∀ b ∈ post, 8 * o + n ≤ 8 * b.first ∧ h.first < b.first ∧ h.last ≤ 8 * b.first
  := by
  have hapart := (List.pairwise_append.mp hsound.apart).2.1
  rw [List.pairwise_cons] at hapart
  intro b hb
  refine ⟨?_, (hapart.1 b hb).1, (hapart.1 b hb).2⟩
  cases post with
  | nil => exact absurd hb List.not_mem_nil
  | cons c post =>
    have hnext := hplaced.next c rfl
    obtain rfl | hb := List.mem_cons.mp hb
    · exact hnext
    · have hlt := ((List.pairwise_cons.mp hapart.2).1 b hb).1
      omega

/-- What remains of the hole. -/
theorem Placed.mem_cut (hplaced : Placed ip pre h post o n) {x : Hole}
    (hx : x ∈ cutAt (shortened ip h (8 * o + n)) o n) :
  x.first = h.first ∧ x.last = 8 * o ∧ h.first < o
    ∨ 8 * x.first = 8 * o + n ∧ x.last = h.last ∧ 8 * o + n < h.last
      ∧ 8 * o + n + 8 ≤ ipMaxudp ∧ h.first < x.first
  := by
  have hfirst : (shortened ip h (8 * o + n)).first = h.first := rfl
  rw [cutAt, hfirst] at hx
  obtain hx | hx := List.mem_append.mp hx
  · obtain ⟨hlt, hx⟩ := List.mem_ite_nil_right.mp hx
    rw [List.mem_singleton.mp hx]
    exact .inl ⟨rfl, rfl, hlt⟩
  · obtain ⟨hlt, hx⟩ := List.mem_ite_nil_right.mp hx
    obtain ⟨hlast, hfirst, hback⟩ := hplaced.back_of_lt hlt
    rw [List.mem_singleton.mp hx]
    exact .inr ⟨hfirst, hlast, hback⟩

theorem pairwise_ite {α : Type} {R : α → α → Prop} (p : Prop) [Decidable p] (x : α) :
  (if p then [x] else []).Pairwise R
  := by
  split
  · exact List.pairwise_singleton _ _
  · exact List.Pairwise.nil

/-- The holes that remain are one behind the other. -/
theorem Sound.apart_cut (hsound : Sound s (pre ++ h :: post))
    (hplaced : Placed ip pre h post o n) {pre' : List Hole} (hsub : List.Sublist pre' pre) :
  (pre' ++ cutAt (shortened ip h (8 * o + n)) o n ++ post).Pairwise
    fun a b => a.first < b.first ∧ a.last ≤ 8 * b.first
  := by
  obtain ⟨hpre, hpost, hcross⟩ := List.pairwise_append.mp hsound.apart
  have hnext := hsound.next_le hplaced
  rw [List.append_assoc, List.pairwise_append, List.pairwise_append]
  refine ⟨hpre.sublist hsub, ⟨?_, (List.pairwise_cons.mp hpost).2, ?_⟩, ?_⟩
  · rw [cutAt, List.pairwise_append]
    refine ⟨pairwise_ite _ _, pairwise_ite _ _, ?_⟩
    intro a ha b hb
    obtain ⟨_, ha⟩ := List.mem_ite_nil_right.mp ha
    obtain ⟨hlt, hb⟩ := List.mem_ite_nil_right.mp hb
    obtain ⟨_, _, _, _, hfirst⟩ := hplaced.back_of_lt hlt
    rw [List.mem_singleton.mp ha, List.mem_singleton.mp hb]
    exact ⟨hfirst, Nat.mul_le_mul_left 8 (Nat.le_add_right _ _)⟩
  · intro a ha b hb
    obtain ⟨hle, hlt, hlast⟩ := hnext b hb
    obtain ⟨hfirst, hstart, _⟩ | ⟨hfirst, hstart, _⟩ := hplaced.mem_cut ha
    · omega
    · omega
  · intro a ha b hb
    have hmem := hsub.subset ha
    obtain hb | hb := List.mem_append.mp hb
    · have hlt := hcross a hmem h List.mem_cons_self
      obtain ⟨hfirst, _⟩ | ⟨_, _, _, _, hfirst⟩ := hplaced.mem_cut hb
      · omega
      · omega
    · exact hcross a hmem b (List.mem_cons_of_mem h hb)

/-- **A fragment in its place.**  The list goes on, or the packet is complete. -/
theorem Sound.place (hsound : Sound s (pre ++ h :: post)) (hplaced : Placed ip pre h post o n) :
  (placeFragment s ip h.first o n).2.isSome
    ∨ (placeFragment s ip h.first o n).2.isSome = false
      ∧ ∃ hs', Sound (placeFragment s ip h.first o n).1 hs'
  := by
  have hlong := hplaced.long
  have hmax : ipMaxudp < 2 ^ 16 := by decide
  have hord := hsound.ordered
  have hstop : (8 * ((o : ℕ) : ℤ) + (n : ℤ)) = ((8 * o + n : ℕ) : ℤ) := by
    push_cast
    rfl
  have hread : ((n : ℤ) % 2 ^ 32).toNat = n := by omega
  have hlinked := @Linked.truncate _ _ _ _ ip hsound.linked hord (8 * o + n) (by omega)
  have hord' : Ordered (pre ++ shortened ip h (8 * o + n) :: post) := by
    have hindices : indices (pre ++ shortened ip h (8 * o + n) :: post)
        = indices (pre ++ h :: post) := by
      rw [indices_append, indices_append]
      rfl
    constructor
    · rw [hindices]
      exact hord.sorted
    · rw [hindices]
      exact hord.lt
  have hnew : 8 * o + n < (shortened ip h (8 * o + n)).last → o + n / 8 < 2 ^ 16
      ∧ o + n / 8 ∉ indices (pre ++ shortened ip h (8 * o + n) :: post) ∧ o + n / 8 ≠ 0 := by
    intro hlt
    obtain ⟨_, hfirst, _, _, hgt⟩ := hplaced.back_of_lt hlt
    refine ⟨by omega, ?_, by omega⟩
    intro hmem
    rw [indices_append, indices_cons] at hmem
    obtain hmem | hmem := List.mem_append.mp hmem
    · have hlt' := hord.pre_lt hmem
      omega
    obtain heq | hmem := List.mem_cons.mp hmem
    · exact hgt.ne heq.symm
    · obtain ⟨b, hb, heq⟩ := List.mem_map.mp hmem
      obtain ⟨_, _, hlast⟩ := hsound.next_le hplaced b hb
      omega
  rw [placeFragment, hstop, hread]
  dsimp only
  have hcases := fixHoles_linked hlinked hord' (by omega) hnew
  have hfirst : (shortened ip h (8 * o + n)).first = h.first := rfl
  rw [hfirst] at hcases
  obtain hdone | ⟨hdone, pre', hsub, hne, hlinked'⟩ := hcases
  · left
    rw [if_pos hdone]
    rfl
  · right
    rw [if_neg (by rw [hdone]; exact Bool.false_ne_true)]
    have happart := hsound.apart_cut hplaced hsub
    have hpre : ∀ x ∈ pre', x ∈ pre ++ h :: post :=
      fun x hx => List.mem_append_left _ (hsub.subset hx)
    have hpost : ∀ x ∈ post, x ∈ pre ++ h :: post :=
      fun x hx => List.mem_append_right _ (List.mem_cons_of_mem h hx)
    have hbounds : ∀ x ∈ pre' ++ cutAt (shortened ip h (8 * o + n)) o n ++ post,
        8 * x.first ≤ x.last ∧ 8 * x.first + 8 ≤ ipMaxudp
          ∧ (8 * x.first + 8 ≤ 8 * o ∨ 8 * o + n ≤ 8 * x.first) := by
      intro x hx
      obtain hx | hx := List.mem_append.mp hx
      · obtain hx | hx := List.mem_append.mp hx
        · have hle := hsound.le x (hpre x hx)
          have hbefore := hplaced.before x (hsub.subset hx)
          exact ⟨hle, hsound.fits x (hpre x hx), .inl (by omega)⟩
        · have hfits := hsound.fits h (List.mem_append_right _ List.mem_cons_self)
          obtain ⟨hfirst, hlast, hlt⟩ | ⟨hfirst, hlast, hlt, hroom, _⟩ := hplaced.mem_cut hx
          · refine ⟨by omega, by omega, by omega⟩
          · refine ⟨by omega, by omega, by omega⟩
      · exact ⟨hsound.le x (hpost x hx), hsound.fits x (hpost x hx),
          .inr (hsound.next_le hplaced x hx).1⟩
    refine ⟨rfl, _, hne, ?_, happart, fun x hx => (hbounds x hx).1,
      fun x hx => (hbounds x hx).2.1⟩
    apply hlinked'.store
    intro i hi
    obtain ⟨x, hx, rfl⟩ := List.mem_map.mp hi
    have hapart := (hbounds x hx).2.2
    rw [Memory.length_read, payload, payload]
    omega

/-- Descriptors that fit are in the buffer. -/
theorem within_of_inDescriptor {w : Write} {i : ℕ} (hw : InDescriptor w i)
    (hi : 8 * i + 8 ≤ ipMaxudp) :
  w.1 + w.2.length ≤ ipPktsize
  := by
  have hmax : ipPktsize = ipMaxudp + ipHdrSizeNoUdp := rfl
  have hend := hw.2
  rw [payload] at hend
  omega

theorem headD_fits (hs : List Hole) (hfits : ∀ x ∈ hs, 8 * x.first + 8 ≤ ipMaxudp) :
  8 * (indices hs).headD 0 + 8 ≤ ipMaxudp ∧ 8 * (indices hs).getLastD 0 + 8 ≤ ipMaxudp
  := by
  have hzero : 8 * 0 + 8 ≤ ipMaxudp := by decide
  have hall : ∀ i ∈ indices hs, 8 * i + 8 ≤ ipMaxudp := by
    intro i hi
    obtain ⟨x, hx, rfl⟩ := List.mem_map.mp hi
    exact hfits x hx
  constructor
  · by_cases hne : (indices hs).headD 0 = 0
    · rwa [hne]
    · exact hall _ (headD_mem hne)
  · by_cases hne : (indices hs).getLastD 0 = 0
    · rwa [hne]
    · exact hall _ (getLastD_mem hne)

/-- **The writes for a fragment in its place** are in the buffer. -/
theorem Sound.within (hsound : Sound s (pre ++ h :: post)) (hplaced : Placed ip pre h post o n)
    {w : Write} (hw : w ∈ placeWrites s ip h.first o n) :
  w.1 + w.2.length ≤ ipPktsize
  := by
  have hlong := hplaced.long
  have hmax : ipPktsize = ipMaxudp + ipHdrSizeNoUdp := rfl
  have hbig : ipMaxudp < 2 ^ 16 := by decide
  have hstop : (8 * ((o : ℕ) : ℤ) + (n : ℤ)) = ((8 * o + n : ℕ) : ℤ) := by
    push_cast
    rfl
  have hfits := hsound.fits h (List.mem_append_right _ List.mem_cons_self)
  rw [placeWrites, hstop] at hw
  obtain hw | hw := List.mem_append.mp hw
  · obtain hw | hw := List.mem_append.mp hw
    · obtain hw | hw := List.mem_append.mp hw
      · obtain ⟨_, hw⟩ := List.mem_ite_nil_right.mp hw
        rw [List.mem_singleton.mp hw]
        exact within_of_inDescriptor (inDescriptor_member _ _ _) hfits
      · have hlinked := @Linked.truncate _ _ _ _ ip hsound.linked hsound.ordered (8 * o + n)
          (by omega)
        obtain ⟨_, hnext, hprev, _⟩ := hlinked.split
        have hfirst : (shortened ip h (8 * o + n)).first = h.first := rfl
        have hlast := hlinked.last _ (List.mem_append_right _ List.mem_cons_self)
        rw [hfirst] at hnext hprev hlast
        have hpre := (headD_fits pre fun x hx => hsound.fits x (List.mem_append_left _ hx)).2
        have hpost := (headD_fits post fun x hx =>
          hsound.fits x (List.mem_append_right _ (List.mem_cons_of_mem h hx))).1
        have hback : 8 * o + n < get (truncate s ip h.first ((8 * o + n : ℕ) : ℤ)).pktBuff h.first
            .lastByte → 8 * (o + n / 8) = 8 * o + n ∧ 8 * o + n + 8 ≤ ipMaxudp := by
          intro hlt
          rw [hlast] at hlt
          obtain ⟨_, hnew, _, hroom, _⟩ := hplaced.back_of_lt hlt
          exact ⟨hnew, hroom⟩
        have hcases := mem_fixWrites (fun hlt => by have hroom := hback hlt; omega) hw
        rw [hnext, hprev] at hcases
        obtain hw | hw | hw | ⟨hlt, hw⟩ := hcases
        · exact within_of_inDescriptor hw hfits
        · exact within_of_inDescriptor hw hpost
        · exact within_of_inDescriptor hw hpre
        · have hroom := hback hlt
          exact within_of_inDescriptor hw (by omega)
    · rw [List.mem_singleton.mp hw, Memory.length_read, payload]
      omega
  · obtain ⟨_, hw⟩ := List.mem_ite_nil_right.mp hw
    have hroom : 2 + 2 ≤ ipPktsize := by decide
    rw [List.mem_singleton.mp hw, length_halfBytes]
    exact hroom

end Sound

/-! ### Runs -/

section Runs

variable {b : Buffer} {s : State} {ip : ℕ → Byte}

theorem within_resetWrites {w : Write} (hw : w ∈ resetWrites s ip) :
  w.1 + w.2.length ≤ ipPktsize
  := by
  have hzero : 8 * 0 + 8 ≤ ipMaxudp := by decide
  rw [resetWrites] at hw
  split at hw
  case isFalse => exact absurd hw List.not_mem_nil
  obtain rfl | hw := List.mem_cons.mp hw
  · exact within_of_inDescriptor (inDescriptor_member _ _ _) hzero
  obtain rfl | hw := List.mem_cons.mp hw
  · exact within_of_inDescriptor (inDescriptor_member _ _ _) hzero
  obtain rfl | hw := List.mem_cons.mp hw
  · exact within_of_inDescriptor (inDescriptor_member _ _ _) hzero
  · have hroom : 0 + ipHdrSizeNoUdp ≤ ipPktsize := by decide
    rw [List.mem_singleton.mp hw, Memory.length_read]
    exact hroom

/-- The packet in the buffer was returned, or there is none, or the list of its holes is sound. -/
def Kept (b : Buffer) : Prop :=
  b.complete = true ∨ b.state.totalLen = 0 ∨ ∃ hs, Sound b.state hs

/-- A call begins with a sound list. -/
theorem sound_of_kept (hkept : Kept b) (hfine : CallFine b ip) (hlong : ¬ TooLong ip) :
  ∃ hs, Sound (reset b.state ip) hs
  := by
  by_cases hfresh : Fresh (half ip 4) b.state
  · exact ⟨_, sound_reset hfresh⟩
  obtain hcomplete | hzero | hsound := hkept
  · exact absurd (hfine.incomplete hlong hcomplete) hfresh
  · exact absurd (.inl hzero) hfresh
  · have hreset : reset b.state ip = b.state := if_neg hfresh
    rwa [hreset]

/-- A call that puts the fragment nowhere. -/
theorem call_of_none (hlong : ¬ TooLong ip) (hreached : reached b.state ip = none)
    (hfind : (findHole (reset b.state ip).pktBuff (8 * offset8 ip) (2 ^ 16 + 1)
      (reset b.state ip).firstHole).isSome) :
  Safe b ip ∧ call b ip = some ⟨reset b.state ip, false⟩
  := by
  obtain ⟨found, hfound⟩ := Option.isSome_iff_exists.mp hfind
  have hcall : netDefragment b.state ip = some (reset b.state ip, none) := by
    rw [netDefragment_eq, if_neg hlong, hfound, hreached]
    rfl
  refine ⟨⟨?_, ?_, ?_⟩, ?_⟩
  · rw [hcall]
    rfl
  · intro w hw
    rw [defragmentWrites, if_neg hlong, hreached, Option.map_none, Option.getD_none,
      List.append_nil] at hw
    exact within_resetWrites hw
  · intro hsome
    rw [hreached] at hsome
    cases hsome
  · rw [call, hcall, Option.map_some, if_neg hlong]
    rfl

/-- The condition on a fragment, for its length as a number. -/
theorem PlacedFine.placed {pre post : List Hole} {h : Hole} (hplaced : PlacedFine ip h post)
    (hlong : ¬ TooLong ip) (hpre : ∀ x ∈ pre, x.last < 8 * offset8 ip)
    (hreaches : h.first < offset8 ip + (fragLen ip + 7).tdiv 8) :
  ∃ n : ℕ, fragLen ip = n ∧ Placed ip pre h post (offset8 ip) n
  := by
  obtain ⟨n, hn⟩ := Int.eq_ofNat_of_zero_le hplaced.nonneg
  have hlen : fragLen ip < 2 ^ 16 := by
    have hlt : half ip 2 < 2 ^ 16 := bytesHalf_lt _
    rw [fragLen]
    omega
  have hoffset : offset8 ip ≤ ipOffs := Nat.and_le_right
  have hmask : ipOffs < 2 ^ 13 := by decide
  obtain ⟨_, hnext, hback⟩ := hplaced
  rw [TooLong, not_lt] at hlong
  rw [hn] at hlong hnext hback hreaches hlen
  refine ⟨n, hn, hpre, ?_, ?_, ?_, ?_⟩
  · rw [Int.tdiv_eq_ediv_of_nonneg (by omega)] at hreaches
    omega
  · omega
  · intro x hx
    have hle := hnext x hx
    omega
  · intro hmore hlt
    obtain ⟨hdvd, hroom⟩ := hback hmore (by omega)
    exact ⟨by omega, by omega⟩

/-- A call that puts the fragment in a hole. -/
theorem call_of_placed {pre post : List Hole} {h : Hole} (hlong : ¬ TooLong ip)
    (hreached : reached b.state ip = some h.first)
    (hsound : Sound (reset b.state ip) (pre ++ h :: post))
    (hplaced : ∃ n : ℕ, fragLen ip = n ∧ Placed ip pre h post (offset8 ip) n)
    (hfind : (findHole (reset b.state ip).pktBuff (8 * offset8 ip) (2 ^ 16 + 1)
      (reset b.state ip).firstHole).isSome) :
  Safe b ip ∧ ∃ b', Defrag.call b ip = some b' ∧ Kept b'
  := by
  obtain ⟨n, hn, hplaced⟩ := hplaced
  obtain ⟨found, hfound⟩ := Option.isSome_iff_exists.mp hfind
  have hcall : netDefragment b.state ip
      = some (placeFragment (reset b.state ip) ip h.first (offset8 ip) n) := by
    rw [netDefragment_eq, if_neg hlong, hfound, hreached, hn]
    rfl
  have hbuffer : Defrag.call b ip
      = some ⟨(placeFragment (reset b.state ip) ip h.first (offset8 ip) n).1,
        (placeFragment (reset b.state ip) ip h.first (offset8 ip) n).2.isSome⟩ := by
    rw [Defrag.call, hcall, Option.map_some, if_neg hlong]
  refine ⟨⟨?_, ?_, ?_⟩, _, hbuffer, ?_⟩
  · rw [hcall]
    rfl
  · intro w hw
    rw [defragmentWrites, if_neg hlong, hreached, hn] at hw
    obtain hw | hw := List.mem_append.mp hw
    · exact within_resetWrites hw
    · exact hsound.within hplaced hw
  · intro _
    rw [hn]
    exact Int.natCast_nonneg n
  · obtain hdone | ⟨_, hs', hsound'⟩ := hsound.place hplaced
    · exact .inl hdone
    · exact .inr (.inr ⟨hs', hsound'⟩)

/-- **One call** keeps the list sound, or completes the packet. -/
theorem Kept.call (hkept : Kept b) (hfine : CallFine b ip) :
  Safe b ip ∧ ∃ b', Defrag.call b ip = some b' ∧ Kept b'
  := by
  by_cases hlong : TooLong ip
  · have hcall : netDefragment b.state ip = some (b.state, none) := by
      rw [netDefragment_eq, if_pos hlong]
    refine ⟨⟨?_, ?_, ?_⟩, b, ?_, hkept⟩
    · rw [hcall]
      rfl
    · intro w hw
      rw [defragmentWrites, if_pos hlong] at hw
      exact absurd hw List.not_mem_nil
    · intro hsome
      rw [reached, if_pos hlong] at hsome
      cases hsome
    · rw [Defrag.call, hcall, Option.map_some, if_pos hlong]
  obtain ⟨hs, hsound⟩ := sound_of_kept hkept hfine hlong
  have hkept' : Kept ⟨reset b.state ip, false⟩ := .inr (.inr ⟨hs, hsound⟩)
  obtain hall | ⟨pre, h, post, rfl, hpre, hh⟩ := exists_first hs (8 * offset8 ip)
  · have hfind := hsound.linked.findHole_none hsound.ordered hsound.ne hall
    have hreached : reached b.state ip = none := by
      rw [reached, if_neg hlong, hfind]
      rfl
    obtain ⟨hsafe, hcall⟩ := call_of_none hlong hreached (by rw [hfind]; rfl)
    exact ⟨hsafe, _, hcall, hkept'⟩
  have hfind := hsound.linked.findHole_eq hsound.ordered hpre hh
  by_cases hdup : (offset8 ip : ℤ) + (fragLen ip + 7).tdiv 8 ≤ h.first
  · have hreached : reached b.state ip = none := by
      rw [reached, if_neg hlong, hfind, Option.join_some, Option.filter_some, if_neg]
      rw [decide_eq_true_eq]
      exact not_not.mpr hdup
    obtain ⟨hsafe, hcall⟩ := call_of_none hlong hreached (by rw [hfind]; rfl)
    exact ⟨hsafe, _, hcall, hkept'⟩
  · have hreached : reached b.state ip = some h.first := by
      rw [reached, if_neg hlong, hfind, Option.join_some, Option.filter_some, if_pos]
      exact decide_eq_true hdup
    have hdrop : (holes (reset b.state ip)).dropWhile (fun x => x.last < 8 * offset8 ip)
        = h :: post := by
      rw [hsound.holes_eq, List.dropWhile_append_of_pos, List.dropWhile_cons_of_neg]
      · rw [decide_eq_true_eq]
        exact Nat.not_lt.mpr hh
      · exact fun x hx => decide_eq_true (hpre x hx)
    have hplaced := (hfine.placed hlong h post hdrop (lt_of_not_ge hdup)).placed hlong hpre
      (lt_of_not_ge hdup)
    exact call_of_placed hlong hreached hsound hplaced (by rw [hfind]; rfl)

/-- **The buffer is safe** along every run of fragments that are fine, from the start on: every call
returns, and what it writes is in the buffer. -/
theorem exec_safe (s : State) (hzero : s.totalLen = 0) (ips : List (ℕ → Byte))
    (hfine : Run.Along call CallFine ⟨s, false⟩ ips) :
  (∃ b', Run.exec call ⟨s, false⟩ ips = some b') ∧ Run.Along call Safe ⟨s, false⟩ ips
  := by
  have hstart : Kept ⟨s, false⟩ := .inr (.inl hzero)
  constructor
  · obtain ⟨b', hexec, _⟩ := Run.exec_invariant (fun _ _ hkept hfine => (hkept.call hfine).2)
      hstart hfine
    exact ⟨b', hexec⟩
  · apply Run.along_invariant (fun _ _ hkept hfine => ?_) hstart hfine
    obtain ⟨hsafe, _, hcall, hkept'⟩ := hkept.call hfine
    refine ⟨hsafe, ?_⟩
    intro b'' hb''
    rw [hcall, Option.mem_some_iff] at hb''
    rwa [← hb'']

/-- A fragment from 10.0.0.1 to 10.0.0.2 without data. -/
def bare (len off sum : ℕ) (i : ℕ) : Byte :=
  ([0x45, 0] ++ halfBytes len ++ halfBytes 1 ++ halfBytes off ++ [64, 17] ++ halfBytes sum
    ++ [10, 0, 0, 1, 10, 0, 0, 2]).getD i 0

/-- The variables at the start. -/
def atStart : State := ⟨fun _ => 0, 0, 0⟩

theorem exec_safe_two :
  Run.Along call Safe ⟨atStart, false⟩ [bare 36 0x2000 0x46c6, bare 28 2 0x66cc]
  := by
  have hsecond : (call ⟨atStart, false⟩ (bare 36 0x2000 0x46c6)).map
      (fun b => ((holes (reset b.state (bare 28 2 0x66cc))).map fun h => (h.first, h.last),
        b.complete))
      = some ([(2, 0xffff)], false) := by decide +kernel
  have hfine : Run.Along call CallFine ⟨atStart, false⟩
      [bare 36 0x2000 0x46c6, bare 28 2 0x66cc] := by
    refine ⟨⟨fun _ => nofun, ?_⟩, ?_⟩
    · intro _ h post hholes _
      rw [(sound_reset (.inl rfl)).holes_eq] at hholes
      obtain ⟨rfl, rfl⟩ := List.cons.inj hholes.symm
      exact ⟨by decide, nofun, by decide⟩
    · intro b hb
      rw [Option.mem_def.mp hb] at hsecond
      obtain ⟨hholes, hcomplete⟩ := Prod.mk.inj (Option.some.inj hsecond)
      obtain ⟨a, ha, hpair⟩ := List.map_eq_singleton_iff.mp hholes
      obtain ⟨hfirst, hlast⟩ := Prod.mk.inj hpair
      refine ⟨⟨fun _ htrue => absurd htrue (by rw [hcomplete]; decide), ?_⟩, fun _ _ => trivial⟩
      intro _ h post hdrop _
      have hkeep : ¬ a.last < 8 * offset8 (bare 28 2 0x66cc) := by
        rw [hlast]
        decide
      rw [ha, List.dropWhile_cons_of_neg (by rwa [decide_eq_true_eq])] at hdrop
      obtain ⟨rfl, rfl⟩ := List.cons.inj hdrop.symm
      exact ⟨by decide, nofun, fun hmore => absurd (by decide) hmore⟩
  exact (exec_safe atStart rfl _ hfine).2

/-- A fragment whose header says that it is shorter than a header: the length that is copied is
`-1`. -/
theorem not_safe_bare :
  ¬ ∀ (s : State) (ips : List (ℕ → Byte)), s.totalLen = 0 → (∀ ip ∈ ips, Accepted ip) →
    Run.Along call Safe ⟨s, false⟩ ips
  := by
  intro hall
  have haccepted : Accepted (bare 19 0x2001 0x46d6) :=
    ⟨by decide, by decide, by decide, by decide⟩
  have hsafe := (hall atStart [bare 19 0x2001 0x46d6] rfl fun _ hip =>
    List.mem_singleton.mp hip ▸ haccepted).1
  have hreached : reached atStart (bare 19 0x2001 0x46d6) = some 0 := by decide +kernel
  have hneg : ¬ 0 ≤ fragLen (bare 19 0x2001 0x46d6) := by decide
  exact hneg (hsafe.copied (by rw [hreached]; rfl))

end Runs

end Defrag
