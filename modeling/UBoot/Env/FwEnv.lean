import UBoot.Lib.Run
import UBoot.Env.Redundant

/-!
# The redundant environment of the Linux tool

`env_init` and `flash_write` of `tools/env/fw_env.c` on a device with two copies.  On a
NAND device the flags are a serial number: the copy that is written gets the number after
that of the copy that was read (`FLAG_INCREMENTAL`).

`env_init` keeps the numbers in variables of type `char` and tests `flag1 > flag0` before
it asks whether the number of the first copy has wrapped around.  So it finds the last
copy written through every number of rounds exactly when `char` is unsigned and the odd
numbers go to the first copy (`picks_recent_iff`).
-/

namespace Env

namespace Fw

/-- `enum flag_scheme`. -/
inductive FlagScheme where
  | none
  | boolean
  | incremental
  deriving DecidableEq

/-- The types of devices that `flash_read` accepts. -/
inductive MtdType where
  | norFlash
  | nandFlash
  deriving DecidableEq

/-- The flag scheme for devices of these types. -/
def flagScheme : MtdType → MtdType → Option FlagScheme
  | .norFlash, .norFlash => some .boolean
  | .nandFlash, .nandFlash => some .incremental
  | _, _ => Option.none

/-- A byte in a variable of type `char`, which is signed on some hosts. -/
def charVal (signed : Bool) (b : Byte) : ℤ :=
  if signed ∧ 128 ≤ b.toNat then (b.toNat : ℤ) - 256 else b.toNat

/-- The choice between two good copies by their flags. -/
def chooseByFlags (signed : Bool) (scheme : FlagScheme) (flags₀ flags₁ : Byte) : Option Slot :=
  let flag0 := charVal signed flags₀
  let flag1 := charVal signed flags₁
  match scheme with
  | .boolean =>
    if flag0 = 1 ∧ flag1 = 0 then some .first
    else if flag0 = 0 ∧ flag1 = 1 then some .second
    else if flag0 = flag1 then some .first
    else if flag0 = 0xff then some .first
    else if flag1 = 0xff then some .second
    else some .first
  | .incremental =>
    if (flag0 = 255 ∧ flag1 = 0) ∨ flag1 > flag0 then some .second
    else if (flag1 = 255 ∧ flag0 = 0) ∨ flag0 > flag1 then some .first
    else some .first
  | .none => Option.none

/-- What the tool knows of its host: the sign of `char`, the types of the two devices and
the default environment. -/
structure Host where
  signed : Bool
  type : Slot → MtdType
  defaultEnvironment : List Byte

/-- `env_init` with `HaveRedundEnv`: the copy that is used (`dev_current`) and the
environment in memory; `none` when it returns an error. -/
def envInit (h : Host) (dev : Slot → Copy) : Option (Slot × Copy) := do
  let scheme ← flagScheme (h.type .first) (h.type .second)
  if (dev .first).CrcOk ∧ ¬ (dev .second).CrcOk then some (.first, dev .first)
  else if ¬ (dev .first).CrcOk ∧ (dev .second).CrcOk then some (.second, dev .second)
  else if ¬ (dev .first).CrcOk ∧ ¬ (dev .second).CrcOk then
    some (.first, { dev .first with
      data := h.defaultEnvironment ++ (dev .first).data.drop h.defaultEnvironment.length })
  else do
    let devCurrent ← chooseByFlags h.signed scheme (dev .first).flags (dev .second).flags
    some (devCurrent, dev devCurrent)

/-- `flash_write` of the environment `env` to the place that is not the current one. -/
def flashWrite (scheme : FlagScheme) (devCurrent : Slot) (env : Copy) (dev : Slot → Copy) :
    Slot → Copy :=
  match scheme with
  | .none => Function.update dev devCurrent.other env
  | .incremental => Function.update dev devCurrent.other { env with flags := env.flags + 1 }
  | .boolean =>
    let dev := Function.update dev devCurrent.other { env with flags := 1 }
    Function.update dev devCurrent { dev devCurrent with flags := 0 }

/-- The device, and the place that was written last. -/
structure State where
  dev : Slot → Copy
  recent : Slot

/-- A successful run of `fw_setenv`: it reads the environment, edits the data and writes
the result back. -/
def writeBack (h : Host) (s : State) (edit : List Byte → List Byte) : Option State := do
  let (devCurrent, env) ← envInit h s.dev
  let scheme ← flagScheme (h.type .first) (h.type .second)
  some ⟨flashWrite scheme devCurrent (env.edit (edit env.data)) s.dev, devCurrent.other⟩

/-! ### Serial numbers -/

theorem toNat_succ (f : Byte) :
  (f + 1).toNat = (f.toNat + 1) % 256
  := by
  rw [UInt8.toNat_add]
  rfl

theorem charVal_unsigned (b : Byte) :
  charVal false b = b.toNat
  := by
  simp [charVal]

/-- The number of `second` follows that of `first`: it is found to be the newer one. -/
theorem chooseByFlags_second (f : Byte) :
  chooseByFlags false .incremental f (f + 1) = some .second
  := by
  have hf := f.toNat_lt
  simp only [chooseByFlags, charVal_unsigned, toNat_succ]
  rw [if_pos (by omega)]

/-- The number of `first` follows that of `second`: it is found to be the newer one unless
it has just wrapped around. -/
theorem chooseByFlags_first {f : Byte} (hne : f ≠ 255) :
  chooseByFlags false .incremental (f + 1) f = some .first
  := by
  have hf := f.toNat_lt
  have hne' : f.toNat ≠ 255 := fun h => hne (UInt8.toNat_inj.mp h)
  simp only [chooseByFlags, charVal_unsigned, toNat_succ]
  rw [if_neg (by omega), if_pos (by omega)]

/-- The choice of `env_init` between two good copies on a NAND device. -/
theorem envInit_eq {h : Host} {dev : Slot → Copy} (htype : ∀ s, h.type s = .nandFlash)
    (hcrc : ∀ s, (dev s).CrcOk) :
  envInit h dev
    = (chooseByFlags h.signed .incremental (dev .first).flags (dev .second).flags).map
      fun s => (s, dev s)
  := by
  have h₀ := hcrc .first
  have h₁ := hcrc .second
  simp only [envInit, htype, flagScheme, Option.bind_eq_bind, Option.bind_some, h₀, h₁,
    not_true_eq_false, and_false, false_and, if_false]
  cases chooseByFlags h.signed .incremental (dev .first).flags (dev .second).flags <;> rfl

/-- Both copies are good, and the number of the one written last follows that of the
other. -/
structure Consecutive (s : State) : Prop where
  crcOk : ∀ t, (s.dev t).CrcOk
  flags : (s.dev s.recent).flags = (s.dev s.recent.other).flags + 1

/-- `env_init` picks the copy written last. -/
def PicksRecent (h : Host) (s : State) : Prop :=
  envInit h s.dev = some (s.recent, s.dev s.recent)

/-- The first copy has odd numbers. -/
def OddFirst (s : State) : Prop := (s.dev .first).flags.toNat % 2 = 1

variable {h : Host} {s : State}

theorem picksRecent_iff (htype : ∀ t, h.type t = .nandFlash) (hs : Consecutive s) :
  PicksRecent h s
    ↔ chooseByFlags h.signed .incremental (s.dev .first).flags (s.dev .second).flags
      = some s.recent
  := by
  rw [PicksRecent, envInit_eq htype hs.crcOk]
  constructor
  · intro heq
    obtain ⟨t, ht, heq⟩ := Option.map_eq_some_iff.mp heq
    rw [ht, show t = s.recent from congrArg Prod.fst heq]
  · intro heq
    rw [heq, Option.map_some]

theorem picksRecent_of_oddFirst (htype : ∀ t, h.type t = .nandFlash) (hsigned : h.signed = false)
    (hs : Consecutive s) (hodd : OddFirst s) :
  PicksRecent h s
  := by
  rw [picksRecent_iff htype hs, hsigned]
  obtain ⟨dev, recent⟩ := s
  have hflags := hs.flags
  cases recent with
  | second =>
    simp only [Slot.other] at hflags ⊢
    rw [hflags, chooseByFlags_second]
  | first =>
    simp only [Slot.other] at hflags ⊢
    rw [hflags, chooseByFlags_first]
    intro h255
    rw [OddFirst, hflags, h255] at hodd
    exact absurd hodd (by decide)

/-- The flags of the other copy are those of the last one less one. -/
theorem Consecutive.other_flags (hs : Consecutive s) :
  (s.dev s.recent.other).flags = (s.dev s.recent).flags - 1
  := by
  rw [hs.flags, UInt8.add_sub_cancel]

/-- A signed `char` makes 128 a smaller number than 127. -/
theorem not_picksRecent_of_signed (htype : ∀ t, h.type t = .nandFlash) (hsigned : h.signed = true)
    (hs : Consecutive s) (hflags : (s.dev s.recent).flags = 128) :
  ¬ PicksRecent h s
  := by
  have hother := hs.other_flags
  rw [picksRecent_iff htype hs, hsigned]
  rw [hflags] at hother
  obtain ⟨dev, recent⟩ := s
  cases recent with
  | first =>
    simp only [Slot.other] at hflags hother ⊢
    rw [hflags, hother]
    decide
  | second =>
    simp only [Slot.other] at hflags hother ⊢
    rw [hflags, hother]
    decide

/-- When the first copy has wrapped around, the 255 of the second is the greater number. -/
theorem not_picksRecent_of_wrapped (htype : ∀ t, h.type t = .nandFlash)
    (hsigned : h.signed = false) (hs : Consecutive s) (hflags : (s.dev s.recent).flags = 0)
    (hodd : ¬ OddFirst s) :
  ¬ PicksRecent h s
  := by
  have hother := hs.other_flags
  rw [picksRecent_iff htype hs, hsigned]
  rw [hflags] at hother
  obtain ⟨dev, recent⟩ := s
  cases recent with
  | first =>
    simp only [Slot.other] at hflags hother ⊢
    rw [hflags, hother]
    decide
  | second =>
    simp only [Slot.other] at hother
    rw [OddFirst, hother] at hodd
    exact absurd (by decide) hodd

/-- A write-back that has read the copy written last writes the next number over the other
copy, and keeps the parity of the numbers of each copy. -/
theorem writeBack_eq (htype : ∀ t, h.type t = .nandFlash) (hs : Consecutive s)
    (hpick : PicksRecent h s) (edit : List Byte → List Byte) :
  ∃ s', writeBack h s edit = some s' ∧ Consecutive s'
    ∧ (s'.dev s'.recent).flags = (s.dev s.recent).flags + 1 ∧ (OddFirst s' ↔ OddFirst s)
  := by
  unfold PicksRecent at hpick
  obtain ⟨dev, recent⟩ := s
  have hnew := hs.flags
  refine ⟨⟨Function.update dev recent.other
      { (dev recent).edit (edit (dev recent).data) with flags := (dev recent).flags + 1 },
    recent.other⟩, ?_, ⟨?_, ?_⟩, ?_, ?_⟩
  · simp only [writeBack, hpick, htype, flagScheme, Option.bind_eq_bind, Option.bind_some]
    rfl
  · intro t
    by_cases ht : t = recent.other
    · subst ht
      simp only [Function.update_self]
      exact (Copy.crcOk_flags _).mpr (Copy.crcOk_edit _ _)
    · simp only [Function.update_of_ne ht]
      exact hs.crcOk t
  · simp
  · simp
  · -- the number of the overwritten copy grows by two
    cases recent with
    | first => simp [OddFirst, Slot.other]
    | second =>
      simp only [Slot.other] at hnew
      simp only [OddFirst, Slot.other, Function.update_self, hnew, toNat_succ]
      omega

/-- The state after `k` write-backs, as long as each has picked the copy written last. -/
theorem exec_writeBack (htype : ∀ t, h.type t = .nandFlash) (hs : Consecutive s)
    (hpick : ∀ edits, ∃ s', Run.exec (writeBack h) s edits = some s' ∧ PicksRecent h s') (k : ℕ) :
  ∃ s', Run.exec (writeBack h) s (List.replicate k id) = some s' ∧ Consecutive s'
    ∧ PicksRecent h s' ∧ (s'.dev s'.recent).flags = (s.dev s.recent).flags + UInt8.ofNat k
    ∧ (OddFirst s' ↔ OddFirst s)
  := by
  induction k with
  | zero =>
    obtain ⟨s', hs', hpick'⟩ := hpick []
    obtain rfl : s = s' := Option.some.inj hs'
    exact ⟨s, rfl, hs, hpick', by simp, Iff.rfl⟩
  | succ k ih =>
    obtain ⟨s₁, hrun, hs₁, hpick₁, hflags, hodd⟩ := ih
    obtain ⟨s₂, hstep, hs₂, hflags', hodd'⟩ := writeBack_eq htype hs₁ hpick₁ id
    have hrun' : Run.exec (writeBack h) s (List.replicate (k + 1) id) = some s₂ := by
      rw [List.replicate_succ', Run.exec_append, hrun, Option.bind_some, Run.exec, hstep]
      rfl
    obtain ⟨s₃, hs₃, hpick₃⟩ := hpick (List.replicate (k + 1) id)
    obtain rfl : s₂ = s₃ := Option.some.inj (hrun'.symm.trans hs₃)
    refine ⟨s₂, hrun', hs₂, hpick₃, ?_, hodd'.trans hodd⟩
    rw [hflags', hflags, UInt8.ofNat_add, UInt8.add_assoc]
    rfl

/-- **When `env_init` keeps finding the last copy.**  From two good copies with consecutive
numbers on a NAND device, `env_init` picks the copy written last after every number of
write-backs if and only if `char` is unsigned and the first copy has odd numbers. -/
theorem picks_recent_iff (h : Host) (s : State) (htype : ∀ t, h.type t = .nandFlash)
    (hs : Consecutive s) :
  (∀ edits, ∃ s', Run.exec (writeBack h) s edits = some s' ∧ PicksRecent h s')
    ↔ h.signed = false ∧ OddFirst s
  := by
  constructor
  · intro hpick
    have reach (f : Byte) : ∃ s', Consecutive s' ∧ PicksRecent h s'
        ∧ (s'.dev s'.recent).flags = f ∧ (OddFirst s' ↔ OddFirst s) := by
      obtain ⟨s', -, hs', hpick', hflags, hodd⟩ :=
        exec_writeBack htype hs hpick (f - (s.dev s.recent).flags).toNat
      refine ⟨s', hs', hpick', ?_, hodd⟩
      rw [hflags, UInt8.ofNat_toNat, UInt8.add_comm, UInt8.sub_add_cancel]
    have hsigned : h.signed = false := by
      by_contra hsigned
      rw [Bool.not_eq_false] at hsigned
      obtain ⟨s', hs', hpick', hflags, -⟩ := reach 128
      exact not_picksRecent_of_signed htype hsigned hs' hflags hpick'
    refine ⟨hsigned, ?_⟩
    by_contra hodd
    obtain ⟨s', hs', hpick', hflags, hodd'⟩ := reach 0
    rw [← hodd'] at hodd
    exact not_picksRecent_of_wrapped htype hsigned hs' hflags hodd hpick'
  · rintro ⟨hsigned, hodd⟩ edits
    have hstep : ∀ s edit, Consecutive s ∧ OddFirst s →
        ∃ s', writeBack h s edit = some s' ∧ Consecutive s' ∧ OddFirst s' := by
      intro s edit ⟨hs, hodd⟩
      have hpick := picksRecent_of_oddFirst htype hsigned hs hodd
      obtain ⟨s', hs', hcons, -, hodd'⟩ := writeBack_eq htype hs hpick edit
      exact ⟨s', hs', hcons, hodd'.mpr hodd⟩
    obtain ⟨s', hs', hcons, hodd'⟩ := Run.exec_preserves hstep ⟨hs, hodd⟩ edits
    exact ⟨s', hs', picksRecent_of_oddFirst htype hsigned hcons hodd'⟩

/-- A host with an unsigned `char` and two NAND devices. -/
def nandHost : Host where
  signed := false
  type _ := .nandFlash
  defaultEnvironment := []

/-- Empty copies with the numbers `f₀` and `f₁`. -/
def emptyCopies (f₀ f₁ : Byte) : Slot → Copy
  | .first => ⟨0, f₀, []⟩
  | .second => ⟨0, f₁, []⟩

theorem consecutive_emptyCopies {f₀ f₁ : Byte} {recent : Slot}
    (hflags : (emptyCopies f₀ f₁ recent).flags = (emptyCopies f₀ f₁ recent.other).flags + 1) :
  Consecutive ⟨emptyCopies f₀ f₁, recent⟩
  := by
  refine ⟨?_, hflags⟩
  rintro (_ | _)
  · exact Crc32.crc32_nil 0
  · exact Crc32.crc32_nil 0

theorem picks_recent_odd :
  ∃ s', Run.exec (writeBack nandHost) ⟨emptyCopies 255 0, .second⟩ [id, List.reverse] = some s'
    ∧ PicksRecent nandHost s'
  := (picks_recent_iff nandHost ⟨emptyCopies 255 0, .second⟩ (fun _ => rfl)
    (consecutive_emptyCopies rfl)).mpr ⟨rfl, rfl⟩ [id, List.reverse]

/-- After the numbers 254 and 255 the first copy is written with the number 0, and the
second is picked. -/
theorem wrapped_copy_not_picked :
  Consecutive ⟨emptyCopies 254 255, .second⟩
    ∧ ∃ s', Run.exec (writeBack nandHost) ⟨emptyCopies 254 255, .second⟩ [id] = some s'
      ∧ s'.recent = .first ∧ (envInit nandHost s'.dev).map Prod.fst = some .second
  := by
  refine ⟨consecutive_emptyCopies rfl, _, rfl, rfl, ?_⟩
  decide

end Fw

end Env
