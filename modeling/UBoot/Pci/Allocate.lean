import UBoot.Lib.Align
import UBoot.Pci.Auto

/-!
# Giving out addresses

What `pciauto_region_allocate` and the loop of `pciauto_setup_device` do, in terms of the sizes
that the base address registers ask for.
-/

namespace Pci

/-! ### Regions -/

namespace Region

variable {res : Region} {k : ℕ} {size : PciAddr}

/-- The first multiple of `n` among the addresses that are not taken. -/
def next (res : Region) (n : ℕ) : ℕ := (res.busLower.toNat + (n - 1)) / n * n

/-- The end of the region. -/
def stop (res : Region) : ℕ := res.busStart.toNat + res.size.toNat

/-- There are `n` addresses left, from a multiple of `n` on. -/
def Room (res : Region) (n : ℕ) : Prop := res.next n + n ≤ res.stop

/-- What holds of a region from the start on. -/
structure Started (res : Region) : Prop where
  pos : 0 < res.busLower.toNat
  le : res.busStart.toNat ≤ res.busLower.toNat

theorem started_init (res : Region) :
  res.init.Started
  := by
  rw [init]
  split_ifs with h
  · constructor
    · exact Nat.pos_of_ne_zero fun hzero => h (BitVec.eq_of_toNat_eq hzero)
    · exact le_rfl
  · obtain h : res.busStart = 0 := not_not.mp h
    constructor
    · exact Nat.succ_pos 4095
    · simp [h]

theorem le_next (res : Region) {n : ℕ} (hn : 0 < n) :
  res.busLower.toNat ≤ res.next n
  := by
  have hmod := Nat.div_add_mod (res.busLower.toNat + (n - 1)) n
  have hlt := Nat.mod_lt (res.busLower.toNat + (n - 1)) hn
  rw [next, Nat.mul_comm]
  omega

theorem dvd_next (res : Region) (n : ℕ) :
  n ∣ res.next n
  := Dvd.intro_left _ rfl

theorem toNat_roundUp (h : res.Started) (hsize : size.toNat = 2 ^ k)
    (hnext : res.next size.toNat < 2 ^ 64) :
  (roundUp res.busLower size).toNat = res.next size.toNat
  := by
  have hpos := h.pos
  have hle : (1 : PciAddr) ≤ res.busLower := by
    rw [BitVec.le_def]
    exact hpos
  have hle' : (1 : PciAddr) ≤ size := by
    rw [BitVec.le_def, hsize]
    exact Nat.two_pow_pos k
  have hround := Align.sub_one_or_two_pow_sub_one hpos k
  rw [next, hsize] at hnext
  rw [roundUp, BitVec.toNat_add, BitVec.toNat_or, BitVec.toNat_sub_of_le hle,
    BitVec.toNat_sub_of_le hle', hsize]
  rw [show (1 : PciAddr).toNat = 1 from rfl, hround, Nat.mod_eq_of_lt hnext, next]

/-- The test of `pciauto_region_allocate`, if nothing wraps around. -/
theorem test_iff (h : res.Started) (hsize : size.toNat = 2 ^ k)
    (hwrap : res.next size.toNat + size.toNat < 2 ^ 64) :
  roundUp res.busLower size - res.busStart + size > res.size ↔ ¬ res.Room size.toNat
  := by
  have hround := toNat_roundUp h hsize (by omega)
  have hle := res.le_next (hsize ▸ Nat.two_pow_pos k : 0 < size.toNat)
  have hstart := h.le
  have hsub : (roundUp res.busLower size - res.busStart).toNat
      = res.next size.toNat - res.busStart.toNat := by
    rw [BitVec.toNat_sub_of_le (by rw [BitVec.le_def]; omega), hround]
  rw [gt_iff_lt, BitVec.lt_def, BitVec.toNat_add, hsub, Nat.mod_eq_of_lt (by omega), Room, stop]
  omega

/-- An allocation succeeds if there is room. -/
theorem allocate_eq_some (h : res.Started) (hsize : size.toNat = 2 ^ k)
    (hwrap : res.next size.toNat + size.toNat < 2 ^ 64) (hroom : res.Room size.toNat) :
  ∃ addr lower, res.allocate size = some (addr, { res with busLower := lower })
    ∧ addr.toNat = res.next size.toNat ∧ lower.toNat = res.next size.toNat + size.toNat
  := by
  have hround := toNat_roundUp h hsize (by omega)
  refine ⟨roundUp res.busLower size, roundUp res.busLower size + size, ?_, hround, ?_⟩
  · rw [allocate, if_neg (by rwa [test_iff h hsize hwrap, not_not])]
  · rw [BitVec.toNat_add, hround, Nat.mod_eq_of_lt hwrap]

theorem allocate_eq_none (h : res.Started) (hsize : size.toNat = 2 ^ k)
    (hwrap : res.next size.toNat + size.toNat < 2 ^ 64) (hroom : ¬ res.Room size.toNat) :
  res.allocate size = none
  := by
  rw [allocate, if_pos ((test_iff h hsize hwrap).mpr hroom)]

end Region

/-! ### Base address registers -/

namespace Bar

/-- The number of addresses that the register asks for. -/
def size : Bar → ℕ
  | unused => 0
  | io k _ | mem32 k _ | mem64 k _ => 2 ^ k

def isIo : Bar → Bool
  | io _ _ => true
  | _ => false

def isMem64 : Bar → Bool
  | mem64 _ _ => true
  | _ => false

def prefetchable : Bar → Bool
  | mem32 _ p | mem64 _ p => p
  | _ => false

/-- The region that the register gets its addresses from. -/
def space (regions : Regions) (bar : Bar) : Space :=
  if bar.isIo then .io
  else if (regions .prefetch).isSome ∧ bar.prefetchable then .prefetch
  else .mem

/-- A register in I/O space that is larger than 64 KB is not recognised. -/
def Recognised : Bar → Prop
  | io k _ => k ≤ 16
  | _ => True

/-- What the code finds out from the response of a register that is in use. -/
structure Decoded (bar : Bar) (response upper : Word) : Prop where
  ne_zero : response ≠ 0
  isIo : Pci.isIo response ↔ bar.isIo = true
  isMem64 : Pci.isMem64 response = bar.isMem64
  prefetch : ¬ Pci.isIo response → (response &&& 8 ≠ 0 ↔ bar.prefetchable = true)
  size : barSize response upper = BitVec.ofNat 64 bar.size

theorem decoded_io {k : ℕ} {wide : Bool} (hvalid : (io k wide).Valid) (hk : k ≤ 16) (upper : Word) :
  (io k wide).Decoded
    (BitVec.ofNat 32 ((if wide then 2 ^ 32 else 2 ^ 16) - 2 ^ k) ||| 1) upper
  := by
  have hall : ∀ k : Fin 17, ∀ wide : Bool, 2 ≤ k.val → k.val < (if wide then 32 else 16) →
      let r := BitVec.ofNat 32 ((if wide then 2 ^ 32 else 2 ^ 16) - 2 ^ k.val) ||| 1
      r ≠ 0 ∧ Pci.isIo r ∧ Pci.isMem64 r = false ∧ barSize r 0 = BitVec.ofNat 64 (2 ^ k.val) := by
    decide +kernel
  obtain ⟨hne, hio, h64, hsize⟩ := hall ⟨k, by omega⟩ wide hvalid.1 hvalid.2
  refine ⟨hne, iff_of_true hio rfl, h64, fun hnot => absurd hio hnot, ?_⟩
  rw [barSize, if_pos hio] at hsize ⊢
  exact hsize

theorem decoded_mem32 {k : ℕ} {p : Bool} (hvalid : (mem32 k p).Valid) (upper : Word) :
  (mem32 k p).Decoded (BitVec.ofNat 32 (2 ^ 32 - 2 ^ k) ||| prefetchBit p) upper
  := by
  have hall : ∀ k : Fin 32, ∀ p : Bool, 4 ≤ k.val →
      let r := BitVec.ofNat 32 (2 ^ 32 - 2 ^ k.val) ||| prefetchBit p
      r ≠ 0 ∧ ¬ Pci.isIo r ∧ Pci.isMem64 r = false ∧ (r &&& 8 ≠ 0 ↔ p = true)
        ∧ barSize r 0 = BitVec.ofNat 64 (2 ^ k.val) := by
    decide +kernel
  obtain ⟨hne, hio, h64, hprefetch, hsize⟩ := hall ⟨k, hvalid.2⟩ p hvalid.1
  refine ⟨hne, iff_of_false hio Bool.false_ne_true, h64, fun _ => hprefetch, ?_⟩
  rw [barSize, if_neg hio, if_neg (by rw [h64]; decide)] at hsize ⊢
  exact hsize

theorem decoded_mem64 {k : ℕ} {p : Bool} (hvalid : (mem64 k p).Valid) :
  (mem64 k p).Decoded (BitVec.ofNat 32 (2 ^ 64 - 2 ^ k) ||| 4 ||| prefetchBit p)
    (BitVec.ofNat 32 ((2 ^ 64 - 2 ^ k) / 2 ^ 32))
  := by
  have hall : ∀ k : Fin 64, ∀ p : Bool, 4 ≤ k.val →
      let r := BitVec.ofNat 32 (2 ^ 64 - 2 ^ k.val) ||| 4 ||| prefetchBit p
      r ≠ 0 ∧ ¬ Pci.isIo r ∧ Pci.isMem64 r = true ∧ (r &&& 8 ≠ 0 ↔ p = true)
        ∧ barSize r (BitVec.ofNat 32 ((2 ^ 64 - 2 ^ k.val) / 2 ^ 32))
          = BitVec.ofNat 64 (2 ^ k.val) := by
    decide +kernel
  obtain ⟨hne, hio, h64, hprefetch, hsize⟩ := hall ⟨k, hvalid.2⟩ p hvalid.1
  exact ⟨hne, iff_of_false hio Bool.false_ne_true, h64, fun _ => hprefetch, hsize⟩

theorem Decoded.space {bar : Bar} {response upper : Word} (h : bar.Decoded response upper)
    (regions : Regions) :
  barSpace regions response = bar.space regions
  := by
  rw [barSpace, Bar.space]
  by_cases hio : Pci.isIo response
  · rw [if_pos hio, if_pos (h.isIo.mp hio)]
  · rw [if_neg hio, if_neg (fun hbar => hio (h.isIo.mpr hbar))]
    simp only [h.prefetch hio]

end Bar

/-! ### The turn of a register -/

/-- There is room for what the register asks for. -/
def HasRoom (regions : Regions) (bar : Bar) : Prop :=
  ∃ res, regions (bar.space regions) = some res ∧ res.Room bar.size

/-- What must hold when a register has its turn. -/
structure BarMeets (regions : Regions) (bar : Bar) : Prop where
  /-- A register in I/O space asks for 64 KB at most. -/
  recognised : bar.Recognised
  /-- The addresses do not wrap around. -/
  noWrap : ∀ res, regions (bar.space regions) = some res → res.next bar.size + bar.size < 2 ^ 64
  /-- A register of 32 bits gets an address below 4 GB. -/
  below : ∀ res, regions (bar.space regions) = some res → res.Room bar.size →
    bar.isMem64 = false → res.next bar.size + bar.size ≤ 2 ^ 32
  /-- There is room for a register of 64 bits. -/
  room64 : bar.isMem64 = true → HasRoom regions bar

/-- The regions after the register has had its turn. -/
def Regions.after (regions : Regions) (bar : Bar) : Regions :=
  match (regions (bar.space regions)).bind (·.allocate (BitVec.ofNat 64 bar.size)) with
  | some (_, res) => regions.set (bar.space regions) res
  | none => regions

/-- All regions have been started. -/
def Regions.Started (regions : Regions) : Prop := ∀ s res, regions s = some res → res.Started

section Turn

variable {regions : Regions} {bar : Bar} {q : Path} {rest : List Word} {i : ℕ} {cmdstat : Word}

theorem toNat_size (hvalid : bar.Valid) :
  (BitVec.ofNat 64 bar.size).toNat = bar.size
  := by
  have hlt : bar.size < 2 ^ 64 := by
    cases bar with
    | unused => decide
    | io k wide =>
      have hk : k < 32 := lt_of_lt_of_le hvalid.2 (by split_ifs <;> decide)
      exact Nat.pow_lt_pow_right (by decide) (by omega)
    | mem32 k _ => exact Nat.pow_lt_pow_right (by decide) (by have := hvalid.2; omega)
    | mem64 k _ => exact Nat.pow_lt_pow_right (by decide) hvalid.2
  rw [BitVec.toNat_ofNat, Nat.mod_eq_of_lt hlt]

theorem exists_size_eq (hne : bar ≠ .unused) :
  ∃ k, bar.size = 2 ^ k
  := by
  cases bar with
  | unused => exact absurd rfl hne
  | io k _ => exact ⟨k, rfl⟩
  | mem32 k _ => exact ⟨k, rfl⟩
  | mem64 k _ => exact ⟨k, rfl⟩

/-- The bit of the command register that lets the register answer. -/
def Bar.enable (bar : Bar) : Word := if bar.isIo then commandIo else commandMemory

/-- What a register of the device gives to the loop, and how many registers it is. -/
theorem setupBars_decoded (hne : bar ≠ .unused) (hvalid : bar.Valid) (hrec : bar.Recognised) :
  ∃ response upper, bar.Decoded response ((upper ++ rest).headD 0)
    ∧ bar.responses = response :: upper
    ∧ (bar.isMem64 = false → upper = []) ∧ (bar.isMem64 = true → ∃ u, upper = [u])
  := by
  cases bar with
  | unused => exact absurd rfl hne
  | io k wide => exact ⟨_, [], Bar.decoded_io hvalid hrec _, rfl, fun _ => rfl, by simp [Bar.isMem64]⟩
  | mem32 k p => exact ⟨_, [], Bar.decoded_mem32 hvalid _, rfl, fun _ => rfl, by simp [Bar.isMem64]⟩
  | mem64 k p => exact ⟨_, [_], Bar.decoded_mem64 hvalid, rfl, by simp [Bar.isMem64], fun _ => ⟨_, rfl⟩⟩

/-- The turn of a register for which there is room. -/
theorem setupBars_of_room (hne : bar ≠ .unused) (hvalid : bar.Valid)
    (hmeets : BarMeets regions bar) (hstarted : regions.Started) (hroom : HasRoom regions bar) :
  ∃ res addr lower, regions (bar.space regions) = some res
    ∧ regions.after bar = regions.set (bar.space regions) { res with busLower := lower }
    ∧ addr.toNat = res.next bar.size ∧ lower.toNat = res.next bar.size + bar.size
    ∧ res.Room bar.size
    ∧ setupBars q (bar.responses ++ rest) i false regions cmdstat
      = { setupBars q rest (i + bar.responses.length) false (regions.after bar)
          (cmdstat ||| bar.enable) with
        log := .assigned q i (bar.space regions) (BitVec.ofNat 64 bar.size) addr
          :: (setupBars q rest (i + bar.responses.length) false (regions.after bar)
            (cmdstat ||| bar.enable)).log }
  := by
  obtain ⟨res, hres, hroom⟩ := hroom
  obtain ⟨k, hk⟩ := exists_size_eq hne
  have hsize := toNat_size hvalid
  obtain ⟨addr, lower, halloc, haddr, hlower⟩ := Region.allocate_eq_some (hstarted _ res hres)
    (hsize.trans hk) (by rw [hsize]; exact hmeets.noWrap res hres) (by rwa [hsize])
  rw [hsize] at haddr hlower
  have hbind : (regions (bar.space regions)).bind (·.allocate (BitVec.ofNat 64 bar.size))
      = some (addr, { res with busLower := lower }) := by
    rw [hres]
    exact halloc
  have hafter : regions.after bar
      = regions.set (bar.space regions) { res with busLower := lower } := by
    rw [Regions.after, hbind]
  refine ⟨res, addr, lower, hres, hafter, haddr, hlower, hroom, ?_⟩
  obtain ⟨response, upper, hdec, hresponses, h32, h64⟩ :=
    @setupBars_decoded bar rest hne hvalid hmeets.recognised
  have henable : (if isIo response then commandIo else commandMemory) = bar.enable := by
    rw [Bar.enable]
    simp only [hdec.isIo]
  rw [hresponses, List.cons_append, setupBars, if_neg hdec.ne_zero, hafter]
  simp only [hdec.space, hdec.size, hbind, hdec.isMem64, henable, List.length_cons]
  cases hwide : bar.isMem64 with
  | false =>
    rw [h32 hwide]
    have hlt := hmeets.below res hres hroom hwide
    have hpos : 0 < bar.size := hk ▸ Nat.two_pow_pos k
    have hvalue : (addr.setWidth 32).setWidth 64 = addr := by
      apply BitVec.eq_of_toNat_eq
      rw [BitVec.toNat_setWidth, BitVec.toNat_setWidth]
      omega
    simp [hvalue]
  | true =>
    obtain ⟨u, rfl⟩ := h64 hwide
    simp [setupBars]

/-- The turn of a register for which there is no room. -/
theorem setupBars_of_not_room (hne : bar ≠ .unused) (hvalid : bar.Valid)
    (hmeets : BarMeets regions bar) (hstarted : regions.Started) (hroom : ¬ HasRoom regions bar) :
  regions.after bar = regions
    ∧ setupBars q (bar.responses ++ rest) i false regions cmdstat
      = { setupBars q rest (i + bar.responses.length) false regions cmdstat with
        log := .failed q i (bar.space regions)
          :: (setupBars q rest (i + bar.responses.length) false regions cmdstat).log }
  := by
  obtain ⟨k, hk⟩ := exists_size_eq hne
  have hsize := toNat_size hvalid
  have hbind : (regions (bar.space regions)).bind (·.allocate (BitVec.ofNat 64 bar.size))
      = none := by
    cases hres : regions (bar.space regions) with
    | none => rfl
    | some res =>
      apply Region.allocate_eq_none (hstarted _ res hres) (hsize.trans hk)
      · rw [hsize]
        exact hmeets.noWrap res hres
      · rw [hsize]
        exact fun h => hroom ⟨res, hres, h⟩
  obtain ⟨response, upper, hdec, hresponses, h32, -⟩ :=
    @setupBars_decoded bar rest hne hvalid hmeets.recognised
  have hwide : bar.isMem64 = false := by
    rw [Bool.eq_false_iff]
    exact fun h => hroom (hmeets.room64 h)
  refine ⟨by rw [Regions.after, hbind], ?_⟩
  rw [hresponses, List.cons_append, setupBars, if_neg hdec.ne_zero]
  simp only [hdec.space, hdec.size, hbind]
  rw [h32 hwide]
  rfl

end Turn

end Pci
