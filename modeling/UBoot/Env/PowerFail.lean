import UBoot.Lib.Run
import UBoot.Env.Redundant

/-!
# Power failures while the environment is saved

The redundant environments in a NOR flash (`common/env_flash.c`) and in an EEPROM
(`common/env_eeprom.c` with `CONFIG_ENV_OFFSET_REDUND`).  `saveenv` is the list of the
writes it sends to the device, in their order, and a power failure cuts the list off.  Of a
copy that was partly written it is assumed that it fails its check.

Whatever is cut off, `env_init` finds the whole old environment or the whole new one
(`saveenv_powerFail`), on every device that saves, power failures and boots lead to.
-/

namespace Env

/-- A write to the device.  The flags of a copy are one byte, all other writes take longer
and may be cut off. -/
inductive Write where
  | erase (t : Slot)
  | data (t : Slot) (data : List Byte)
  | crc (t : Slot) (crc : Word)
  | copy (t : Slot) (e : Copy)
  | flags (t : Slot) (flags : Byte)

/-- The device after the write.  Where the flags of a copy in a flash are written, the bits
to be set are set already, so that clearing bits is enough. -/
def Write.apply (dev : Slot → Copy) : Write → Slot → Copy
  | .erase t =>
    Function.update dev t ⟨0xffffffff, 0xff, List.replicate (dev t).data.length 0xff⟩
  | .data t d => Function.update dev t { dev t with data := d }
  | .crc t w => Function.update dev t { dev t with crc := w }
  | .copy t e => Function.update dev t e
  | .flags t v => Function.update dev t { dev t with flags := v }

/-- The device after all of the writes. -/
def applyAll (dev : Slot → Copy) (ws : List Write) : Slot → Copy := ws.foldl Write.apply dev

/-- `ACTIVE_FLAG`. -/
def activeFlag : Byte := 1

/-- `OBSOLETE_FLAG`. -/
def obsoleteFlag : Byte := 0

/-- The copy a write goes to. -/
def Write.slot : Write → Slot
  | .erase t | .data t _ | .crc t _ | .copy t _ | .flags t _ => t

/-- A write of the flags of a copy. -/
def Write.IsFlags (w : Write) : Prop :=
  ∃ t v, w = .flags t v ∧ (v = obsoleteFlag ∨ v = activeFlag)

/-! ### The flash -/

namespace Flash

/-- `env_init`: the copy `env_addr` points to, or `none` for the default environment, and
`env_valid`.  When no case applies the fields keep their initial value 0. -/
def envInit (dev : Slot → Copy) : Option Slot × ℕ :=
  let crc1Ok := (dev .first).CrcOk
  let crc2Ok := (dev .second).CrcOk
  let flag1 := (dev .first).flags
  let flag2 := (dev .second).flags
  if crc1Ok ∧ ¬ crc2Ok then (some .first, 1)
  else if ¬ crc1Ok ∧ crc2Ok then (some .second, 1)
  else if ¬ crc1Ok ∧ ¬ crc2Ok then (none, 0)
  else if flag1 = activeFlag ∧ flag2 = obsoleteFlag then (some .first, 1)
  else if flag1 = obsoleteFlag ∧ flag2 = activeFlag then (some .second, 1)
  else if flag1 = flag2 then (some .first, 2)
  else if flag1 = 0xff then (some .first, 2)
  else if flag2 = 0xff then (some .second, 2)
  else (none, 0)

/-- The writes of `saveenv` that make the new copy. -/
def copyWrites (flashAddr : Slot) (env : Copy) : List Write :=
  [.erase flashAddr.other, .data flashAddr.other env.data, .crc flashAddr.other env.crc]

/-- The writes of `saveenv` after that. -/
def flagWrites (flashAddr : Slot) : List Write :=
  [.flags flashAddr obsoleteFlag, .flags flashAddr.other activeFlag]

/-- The writes with which `env_relocate_spec` repairs the flags. -/
def repairs (dev : Slot → Copy) (flashAddr : Slot) : List Write :=
  (if (dev flashAddr.other).flags ≠ obsoleteFlag ∧ (dev flashAddr.other).CrcOk then
    [.flags flashAddr.other obsoleteFlag] else [])
  ++ (if (dev flashAddr).flags ≠ activeFlag ∧ (dev flashAddr).flags &&& activeFlag = activeFlag then
    [.flags flashAddr activeFlag] else [])

end Flash

/-! ### The EEPROM -/

namespace Eeprom

/-- `env_init` with `CONFIG_ENV_OFFSET_REDUND`: `env_valid` as the copy it stands for, or
`none` for 0. -/
def envInitRedund (dev : Slot → Copy) : Option Slot :=
  let crcOk0 := (dev .first).CrcOk
  let crcOk1 := (dev .second).CrcOk
  let flags0 := (dev .first).flags
  let flags1 := (dev .second).flags
  if ¬ crcOk0 ∧ ¬ crcOk1 then none
  else if crcOk0 ∧ ¬ crcOk1 then some .first
  else if ¬ crcOk0 ∧ crcOk1 then some .second
  else if flags0 = activeFlag ∧ flags1 = obsoleteFlag then some .first
  else if flags0 = obsoleteFlag ∧ flags1 = activeFlag then some .second
  else if flags0 = 0xff ∧ flags1 = 0 then some .second
  else if flags1 = 0xff ∧ flags0 = 0 then some .first
  else some .first

/-- The write of `saveenv` that makes the new copy. -/
def copyWrites (envValid : Slot) (env : Copy) : List Write :=
  [.copy envValid.other { env with flags := activeFlag }]

/-- The write of `saveenv` after that. -/
def flagWrites (envValid : Slot) : List Write := [.flags envValid obsoleteFlag]

end Eeprom

/-! ### Both -/

/-- The device that holds the environment. -/
inductive Medium where
  | flash
  | eeprom
  deriving DecidableEq

namespace Medium

variable (M : Medium)

/-- The copy `env_init` selects. -/
def envInit (dev : Slot → Copy) : Option Slot :=
  match M with
  | flash => (Flash.envInit dev).1
  | eeprom => Eeprom.envInitRedund dev

def copyWrites (cur : Slot) (env : Copy) : List Write :=
  match M with
  | flash => Flash.copyWrites cur env
  | eeprom => Eeprom.copyWrites cur env

def flagWrites (cur : Slot) : List Write :=
  match M with
  | flash => Flash.flagWrites cur
  | eeprom => Eeprom.flagWrites cur

/-- The writes of `saveenv`, for the environment `env` in RAM and the current copy `cur`. -/
def saveenv (cur : Slot) (env : Copy) : List Write := M.copyWrites cur env ++ M.flagWrites cur

def repairs (dev : Slot → Copy) (cur : Slot) : List Write :=
  match M with
  | flash => Flash.repairs dev cur
  | eeprom => []

end Medium

/-! ### Saves, power failures and boots -/

namespace PowerFail

/-- The device, and the copy that is in use. -/
structure State where
  dev : Slot → Copy
  cur : Slot

/-- The environment in RAM with the given data. -/
def ramEnv (data : List Byte) : Copy := ⟨Crc32.crc32 0 data, 0, data⟩

/-- The device after `saveenv` was cut off: `k` writes are done, and when the next one is
none of the flags, it may have left an arbitrary copy `torn`. -/
def interrupted (M : Medium) (s : State) (data : List Byte) (k : ℕ) (torn : Option Copy) :
    Slot → Copy :=
  let dev := applyAll s.dev ((M.saveenv s.cur (ramEnv data)).take k)
  match torn with
  | none => dev
  | some e =>
    if k < (M.copyWrites s.cur (ramEnv data)).length then Function.update dev s.cur.other e
    else dev

/-- A boot: `env_init`, and `env_relocate_spec` unless the default environment is used. -/
def boot (M : Medium) (dev : Slot → Copy) : State :=
  match M.envInit dev with
  | none => ⟨dev, .first⟩
  | some t => ⟨applyAll dev (M.repairs dev t), t⟩

/-- The device after a boot that is cut off after `k` of its writes. -/
def bootCut (M : Medium) (dev : Slot → Copy) (k : ℕ) : Slot → Copy :=
  match M.envInit dev with
  | none => dev
  | some t => applyAll dev ((M.repairs dev t).take k)

/-- What happens to the device. -/
inductive Event where
  /-- The environment is saved. -/
  | save (data : List Byte)
  /-- The power fails while it is saved, then during boots, until a boot succeeds. -/
  | powerFail (data : List Byte) (k : ℕ) (torn : Option Copy) (boots : List ℕ)

/-- One event. -/
def step (M : Medium) (s : State) : Event → Option State
  | .save data => some ⟨applyAll s.dev (M.saveenv s.cur (ramEnv data)), s.cur.other⟩
  | .powerFail data k torn boots =>
    some (boot M (boots.foldl (bootCut M) (interrupted M s data k torn)))

/-- A new copy that was begun and is not complete fails its check. -/
def TornBad (M : Medium) (s : State) (data : List Byte) (k : ℕ) (torn : Option Copy) : Prop :=
  k < (M.copyWrites s.cur (ramEnv data)).length → 0 < k ∨ torn ≠ none →
    ¬ (interrupted M s data k torn s.cur.other).CrcOk

/-- The assumption along a run. -/
def Assumed (M : Medium) (s : State) : Event → Prop
  | .save _ => True
  | .powerFail data k torn _ => TornBad M s data k torn

/-- The data that `env_init` selects, or `none` for the default environment. -/
def selected (M : Medium) (dev : Slot → Copy) : Option (List Byte) :=
  (M.envInit dev).map fun t => (dev t).data

/-! ### Writes -/

variable {M : Medium} {dev : Slot → Copy}

theorem applyAll_append (dev : Slot → Copy) (ws ws' : List Write) :
  applyAll dev (ws ++ ws') = applyAll (applyAll dev ws) ws'
  := List.foldl_append

theorem applyAll_of_ne {t : Slot} {ws : List Write} (h : ∀ w ∈ ws, w.slot ≠ t) :
  applyAll dev ws t = dev t
  := by
  induction ws generalizing dev with
  | nil => rfl
  | cons w ws ih =>
    have hw : w.apply dev t = dev t := by
      have hne := h w (by simp)
      cases w <;> exact Function.update_of_ne (Ne.symm hne) _ _
    rw [applyAll, List.foldl_cons, ← applyAll, ih fun w' hw' => h w' (List.mem_cons_of_mem w hw'),
      hw]

/-- Writes of flags change the flags only. -/
theorem applyAll_flags (dev : Slot → Copy) {ws : List Write} (h : ∀ w ∈ ws, w.IsFlags)
    (t : Slot) :
  ∃ v, applyAll dev ws t = { dev t with flags := v }
    ∧ (v = (dev t).flags ∨ v = obsoleteFlag ∨ v = activeFlag)
  := by
  induction ws generalizing dev with
  | nil => exact ⟨(dev t).flags, rfl, .inl rfl⟩
  | cons w ws ih =>
    obtain ⟨t', v', rfl, hv'⟩ := h w (by simp)
    obtain ⟨v, hv, hvs⟩ := ih (Write.apply dev (.flags t' v'))
      fun w' hw' => h w' (List.mem_cons_of_mem _ hw')
    rw [applyAll, List.foldl_cons, ← applyAll, hv]
    by_cases ht : t = t'
    · subst ht
      refine ⟨v, by simp [Write.apply], ?_⟩
      simp only [Write.apply, Function.update_self] at hvs
      obtain rfl | hvs := hvs
      · exact .inr hv'
      · exact .inr hvs
    · refine ⟨v, by simp [Write.apply, ht], ?_⟩
      simpa [Write.apply, ht] using hvs

/-! ### The choice of `env_init` -/

theorem envInit_of_bad {t : Slot} (h : (dev t).CrcOk) (hbad : ¬ (dev t.other).CrcOk) :
  M.envInit dev = some t
  := by
  cases M <;> cases t <;> simp only [Slot.other] at hbad <;>
    simp [Medium.envInit, Flash.envInit, Eeprom.envInitRedund, h, hbad]

theorem envInit_none (h : ∀ t, ¬ (dev t).CrcOk) :
  M.envInit dev = none
  := by
  cases M <;> simp [Medium.envInit, Flash.envInit, Eeprom.envInitRedund, h]

/-- A copy marked as active wins over one marked as obsolete. -/
theorem envInit_active {t : Slot} (h : (dev t).CrcOk) (hact : (dev t).flags = activeFlag)
    (hobs : (dev t.other).flags = obsoleteFlag) :
  M.envInit dev = some t
  := by
  by_cases hbad : (dev t.other).CrcOk
  · cases M <;> cases t <;> simp only [Slot.other] at hbad hobs <;>
      simp [Medium.envInit, Flash.envInit, Eeprom.envInitRedund, h, hbad, hact, hobs,
        activeFlag, obsoleteFlag]
  · exact envInit_of_bad h hbad

/-- The flags that `env_init` of the flash knows. -/
def FlagsOk (M : Medium) (dev : Slot → Copy) : Prop :=
  M = .flash → ∀ t, (dev t).CrcOk →
    (dev t).flags = obsoleteFlag ∨ (dev t).flags = activeFlag ∨ (dev t).flags = 0xff

/-- When there is a good copy, a good copy is selected. -/
theorem envInit_good (hflags : FlagsOk M dev) {t : Slot} (h : (dev t).CrcOk) :
  ∃ t', M.envInit dev = some t' ∧ (dev t').CrcOk
  := by
  by_cases hother : (dev t.other).CrcOk
  · have hboth : ∀ t', (dev t').CrcOk := by
      intro t'
      by_cases ht : t' = t
      · rwa [ht]
      · rwa [Slot.eq_other_of_ne ht]
    have hsome : (M.envInit dev).isSome := by
      cases M with
      | eeprom =>
        simp only [Medium.envInit, Eeprom.envInitRedund, hboth]
        grind
      | flash =>
        have h₁ := hflags rfl .first (hboth .first)
        have h₂ := hflags rfl .second (hboth .second)
        simp only [Medium.envInit, Flash.envInit, hboth]
        grind
    obtain ⟨t', ht'⟩ := Option.isSome_iff_exists.mp hsome
    exact ⟨t', ht', hboth t'⟩
  · exact ⟨t, envInit_of_bad h hother, h⟩

/-! ### Saving -/

variable {s : State} {data : List Byte} {k : ℕ} {torn : Option Copy}

theorem slot_copyWrites (cur : Slot) (env : Copy) :
  ∀ w ∈ M.copyWrites cur env, w.slot = cur.other
  := by
  cases M <;>
    simp [Medium.copyWrites, Flash.copyWrites, Eeprom.copyWrites, Write.slot]

theorem isFlags_flagWrites (cur : Slot) :
  ∀ w ∈ M.flagWrites cur, w.IsFlags
  := by
  cases M <;>
    simp [Medium.flagWrites, Flash.flagWrites, Eeprom.flagWrites, Write.IsFlags]

theorem isFlags_repairs (dev : Slot → Copy) (cur : Slot) :
  ∀ w ∈ M.repairs dev cur, w.IsFlags
  := by
  cases M with
  | eeprom => simp [Medium.repairs]
  | flash =>
    intro w hw
    simp only [Medium.repairs, Flash.repairs, List.mem_append] at hw
    obtain hw | hw := hw
    · split_ifs at hw
      · exact ⟨_, _, List.mem_singleton.mp hw, .inl rfl⟩
      · simp at hw
    · split_ifs at hw
      · exact ⟨_, _, List.mem_singleton.mp hw, .inr rfl⟩
      · simp at hw

/-- The new copy when it is complete. -/
theorem applyAll_copyWrites (dev : Slot → Copy) (cur : Slot) (env : Copy) :
  ∃ v, applyAll dev (M.copyWrites cur env) cur.other = { env with flags := v }
    ∧ (v = activeFlag ∨ v = 0xff)
  := by
  cases M with
  | flash =>
    refine ⟨0xff, ?_, .inr rfl⟩
    simp [Medium.copyWrites, Flash.copyWrites, applyAll, Write.apply]
  | eeprom =>
    refine ⟨activeFlag, ?_, .inl rfl⟩
    simp [Medium.copyWrites, Eeprom.copyWrites, applyAll, Write.apply]

/-- Before the new copy is complete, the device has not changed or the new copy is bad. -/
theorem interrupted_of_lt (htorn : TornBad M s data k torn)
    (hk : k < (M.copyWrites s.cur (ramEnv data)).length) :
  interrupted M s data k torn = s.dev
    ∨ (interrupted M s data k torn s.cur = s.dev s.cur
      ∧ ¬ (interrupted M s data k torn s.cur.other).CrcOk)
  := by
  by_cases htouched : 0 < k ∨ torn ≠ none
  · right
    refine ⟨?_, htorn hk htouched⟩
    have hcur : applyAll s.dev ((M.saveenv s.cur (ramEnv data)).take k) s.cur = s.dev s.cur := by
      apply applyAll_of_ne
      intro w hw
      rw [Medium.saveenv, List.take_append_of_le_length (Nat.le_of_lt hk)] at hw
      rw [slot_copyWrites s.cur (ramEnv data) w (List.mem_of_mem_take hw)]
      exact s.cur.other_ne
    cases torn with
    | none => exact hcur
    | some e =>
      simp only [interrupted, if_pos hk]
      rw [Function.update_of_ne s.cur.ne_other, hcur]
  · left
    rw [not_or, not_not] at htouched
    obtain ⟨hk0, rfl⟩ := htouched
    obtain rfl : k = 0 := by omega
    rfl

/-- Once it is complete, the new copy is good, and the old one has only changed its flags. -/
theorem interrupted_of_le (hk : (M.copyWrites s.cur (ramEnv data)).length ≤ k) :
  ∃ v v', interrupted M s data k torn s.cur.other = { ramEnv data with flags := v }
    ∧ (v = obsoleteFlag ∨ v = activeFlag ∨ v = 0xff)
    ∧ interrupted M s data k torn s.cur = { s.dev s.cur with flags := v' }
    ∧ (v' = (s.dev s.cur).flags ∨ v' = obsoleteFlag ∨ v' = activeFlag)
  := by
  have heq : interrupted M s data k torn
      = applyAll (applyAll s.dev (M.copyWrites s.cur (ramEnv data)))
        ((M.flagWrites s.cur).take (k - (M.copyWrites s.cur (ramEnv data)).length)) := by
    have hdev : interrupted M s data k torn
        = applyAll s.dev ((M.saveenv s.cur (ramEnv data)).take k) := by
      cases torn with
      | none => rfl
      | some e => simp only [interrupted, if_neg (Nat.not_lt.mpr hk)]
    rw [hdev, Medium.saveenv, List.take_append, List.take_of_length_le hk, applyAll_append]
  have hflags : ∀ w ∈ (M.flagWrites s.cur).take
      (k - (M.copyWrites s.cur (ramEnv data)).length), w.IsFlags :=
    fun w hw => isFlags_flagWrites s.cur w (List.mem_of_mem_take hw)
  obtain ⟨v₀, hnew, hv₀⟩ := applyAll_copyWrites (M := M) s.dev s.cur (ramEnv data)
  have hold : applyAll s.dev (M.copyWrites s.cur (ramEnv data)) s.cur = s.dev s.cur := by
    apply applyAll_of_ne
    intro w hw
    rw [slot_copyWrites s.cur (ramEnv data) w hw]
    exact s.cur.other_ne
  obtain ⟨v, hv, hvs⟩ := applyAll_flags
    (applyAll s.dev (M.copyWrites s.cur (ramEnv data))) hflags s.cur.other
  obtain ⟨v', hv', hvs'⟩ := applyAll_flags
    (applyAll s.dev (M.copyWrites s.cur (ramEnv data))) hflags s.cur
  rw [hnew] at hv hvs
  rw [hold] at hv' hvs'
  refine ⟨v, v', by rw [heq, hv], ?_, by rw [heq, hv'], hvs'⟩
  obtain rfl | hvs := hvs
  · obtain hv₀ | hv₀ := hv₀
    · exact .inr (.inl hv₀)
    · exact .inr (.inr hv₀)
  · obtain hvs | hvs := hvs
    · exact .inl hvs
    · exact .inr (.inl hvs)

/-- When there is a good copy, `env_init` selects the one in use. -/
structure Inv (M : Medium) (s : State) : Prop where
  flagsOk : FlagsOk M s.dev
  selects : ∀ t, (s.dev t).CrcOk → M.envInit s.dev = some s.cur

theorem Inv.crcOk_cur (h : Inv M s) {t : Slot} (ht : (s.dev t).CrcOk) :
  (s.dev s.cur).CrcOk
  := by
  obtain ⟨t', ht', hok⟩ := envInit_good h.flagsOk ht
  rw [h.selects t ht] at ht'
  rwa [Option.some.inj ht']

theorem Inv.flagsOk_interrupted (h : Inv M s) (htorn : TornBad M s data k torn) :
  FlagsOk M (interrupted M s data k torn)
  := by
  intro hM t ht
  obtain hk | hk := Nat.lt_or_ge k (M.copyWrites s.cur (ramEnv data)).length
  · obtain heq | ⟨hcur, hbad⟩ := interrupted_of_lt htorn hk
    · rw [heq] at ht ⊢
      exact h.flagsOk hM t ht
    · by_cases htcur : t = s.cur
      · subst htcur
        rw [hcur] at ht ⊢
        exact h.flagsOk hM _ ht
      · rw [Slot.eq_other_of_ne htcur] at ht
        contradiction
  · obtain ⟨v, v', hnew, hv, hold, hv'⟩ := interrupted_of_le hk
    by_cases htcur : t = s.cur
    · subst htcur
      rw [hold, Copy.crcOk_flags] at ht
      rw [hold]
      obtain rfl | hv' := hv'
      · exact h.flagsOk hM _ ht
      · obtain hv' | hv' := hv'
        · exact .inl hv'
        · exact .inr (.inl hv')
    · rw [Slot.eq_other_of_ne htcur, hnew]
      exact hv

/-- The environment found after a power failure is the old one or the new one. -/
theorem Inv.selected_interrupted (h : Inv M s) (htorn : TornBad M s data k torn) :
  selected M (interrupted M s data k torn) = selected M s.dev
    ∨ selected M (interrupted M s data k torn) = some data
  := by
  obtain hk | hk := Nat.lt_or_ge k (M.copyWrites s.cur (ramEnv data)).length
  · left
    obtain heq | ⟨hcur, hbad⟩ := interrupted_of_lt htorn hk
    · rw [heq]
    · by_cases hok : (s.dev s.cur).CrcOk
      · have hinit : M.envInit (interrupted M s data k torn) = some s.cur :=
          envInit_of_bad (by rwa [hcur]) hbad
        rw [selected, selected, hinit, h.selects _ hok, Option.map_some, Option.map_some, hcur]
      · have hold : M.envInit s.dev = none :=
          envInit_none fun t ht => hok (h.crcOk_cur ht)
        have hnew : M.envInit (interrupted M s data k torn) = none := by
          apply envInit_none
          intro t
          by_cases ht : t = s.cur
          · rwa [ht, hcur]
          · rwa [Slot.eq_other_of_ne ht]
        rw [selected, selected, hold, hnew, Option.map_none, Option.map_none]
  · obtain ⟨v, v', hnew, -, hold, -⟩ := interrupted_of_le hk
    have hgood : (interrupted M s data k torn s.cur.other).CrcOk := by
      rw [hnew]
      exact (Copy.crcOk_flags _).mpr rfl
    obtain ⟨t, ht, hok⟩ := envInit_good (h.flagsOk_interrupted htorn) hgood
    by_cases hcur : t = s.cur
    · left
      subst hcur
      rw [hold, Copy.crcOk_flags] at hok
      rw [selected, selected, ht, h.selects _ hok, Option.map_some, Option.map_some, hold]
    · right
      rw [selected, ht, Option.map_some, Slot.eq_other_of_ne hcur, hnew]
      rfl

theorem FlagsOk.applyAll (h : FlagsOk M dev) {ws : List Write} (hws : ∀ w ∈ ws, w.IsFlags) :
  FlagsOk M (applyAll dev ws)
  := by
  intro hM t ht
  obtain ⟨v, heq, hv⟩ := applyAll_flags dev hws t
  rw [heq, Copy.crcOk_flags] at ht
  rw [heq]
  obtain rfl | hv := hv
  · exact h hM t ht
  · obtain hv | hv := hv
    · exact .inl hv
    · exact .inr (.inl hv)

/-- With two good copies the repairs mark the other one as obsolete, and the one in use as
active when the bit is still set. -/
theorem repairs_flags {t : Slot} (hother : (dev t.other).CrcOk) :
  (applyAll dev (Flash.repairs dev t) t.other).flags = obsoleteFlag
    ∧ ((dev t).flags = activeFlag ∨ (dev t).flags = 0xff →
      (applyAll dev (Flash.repairs dev t) t).flags = activeFlag)
  := by
  have hff : (0xff : Byte) &&& activeFlag = activeFlag ∧ (0xff : Byte) ≠ activeFlag := by decide
  by_cases hobs : (dev t.other).flags = obsoleteFlag
  · constructor
    · simp only [Flash.repairs, hobs, ne_eq, not_true_eq_false, false_and, if_false]
      split_ifs <;> simp [applyAll, Write.apply, hobs]
    · rintro (hf | hf) <;> simp [Flash.repairs, hobs, hf, hff, applyAll, Write.apply]
  · constructor
    · simp only [Flash.repairs, hobs, hother, ne_eq, not_false_eq_true, and_self, if_true]
      split_ifs <;> simp [applyAll, Write.apply]
    · rintro (hf | hf) <;> simp [Flash.repairs, hobs, hother, hf, hff, applyAll, Write.apply]

/-- A good copy marked as obsolete is only selected when the other is, too. -/
theorem flags_other_of_obsolete {t : Slot} (hflags : FlagsOk .flash dev)
    (hgood : ∀ t', (dev t').CrcOk) (h : Medium.flash.envInit dev = some t)
    (hobs : (dev t).flags = obsoleteFlag) :
  (dev t.other).flags = obsoleteFlag
  := by
  have hother := hflags rfl t.other (hgood _)
  simp only [Medium.envInit, Flash.envInit, hgood] at h
  simp only [activeFlag, obsoleteFlag] at *
  cases t <;> simp only [Slot.other] at * <;> grind

/-- The repairs of the flags do not change what `env_init` selects. -/
theorem envInit_repairs (hflags : FlagsOk M dev) {t : Slot} (h : M.envInit dev = some t)
    (hok : (dev t).CrcOk) :
  M.envInit (applyAll dev (M.repairs dev t)) = some t
  := by
  cases M with
  | eeprom => exact h
  | flash =>
    obtain ⟨v, heq, -⟩ := applyAll_flags dev (isFlags_repairs dev t) t
    obtain ⟨v', heq', -⟩ := applyAll_flags dev (isFlags_repairs dev t) t.other
    have hok' : (applyAll dev (Medium.flash.repairs dev t) t).CrcOk := by
      rw [heq]
      exact (Copy.crcOk_flags _).mpr hok
    by_cases hbad : (dev t.other).CrcOk
    · obtain ⟨hobs, hact⟩ := repairs_flags hbad
      obtain hf | hf := hflags rfl t hok
      · -- the flags were equal, and the first copy is in use
        have hgood : ∀ t', (dev t').CrcOk := by
          intro t'
          by_cases ht : t' = t
          · rwa [ht]
          · rwa [Slot.eq_other_of_ne ht]
        have hother := flags_other_of_obsolete hflags hgood h hf
        have hbit : obsoleteFlag &&& activeFlag ≠ activeFlag := by decide
        have hnone : Medium.flash.repairs dev t = [] := by
          simp [Medium.repairs, Flash.repairs, hother, hf, hbit]
        rw [hnone]
        exact h
      · exact envInit_active hok' (hact hf) hobs
    · apply envInit_of_bad hok'
      rw [heq']
      exact (Copy.crcOk_flags _).not.mpr hbad

theorem inv_boot (h : FlagsOk M dev) :
  Inv M (boot M dev)
  := by
  by_cases hgood : ∃ t, (dev t).CrcOk
  · obtain ⟨t₀, ht₀⟩ := hgood
    obtain ⟨t, ht, hok⟩ := envInit_good h ht₀
    have heq : boot M dev = ⟨applyAll dev (M.repairs dev t), t⟩ := by simp only [boot, ht]
    rw [heq]
    exact ⟨h.applyAll (isFlags_repairs dev t), fun _ _ => envInit_repairs h ht hok⟩
  · have hbad : ∀ t, ¬ (dev t).CrcOk := fun t ht => hgood ⟨t, ht⟩
    have heq : boot M dev = ⟨dev, .first⟩ := by simp only [boot, envInit_none hbad]
    rw [heq]
    exact ⟨h, fun t ht => absurd ht (hbad t)⟩

theorem FlagsOk.bootCut (h : FlagsOk M dev) (boots : List ℕ) :
  FlagsOk M (boots.foldl (bootCut M) dev)
  := by
  induction boots generalizing dev with
  | nil => exact h
  | cons k boots ih =>
    apply ih
    unfold PowerFail.bootCut
    split
    · exact h
    · exact h.applyAll fun w hw => isFlags_repairs _ _ w (List.mem_of_mem_take hw)

theorem Inv.save (h : Inv M s) (data : List Byte) :
  Inv M ⟨applyAll s.dev (M.saveenv s.cur (ramEnv data)), s.cur.other⟩
  := by
  have hall : interrupted M s data (M.saveenv s.cur (ramEnv data)).length none
      = applyAll s.dev (M.saveenv s.cur (ramEnv data)) := by
    rw [interrupted, List.take_length]
  have htorn : TornBad M s data (M.saveenv s.cur (ramEnv data)).length none := by
    intro hlt
    rw [Medium.saveenv, List.length_append] at hlt
    omega
  have hflags := h.flagsOk_interrupted htorn
  rw [hall] at hflags
  refine ⟨hflags, fun _ _ => ?_⟩
  apply envInit_active
  · cases M <;> simp [Medium.saveenv, Medium.copyWrites, Medium.flagWrites, Flash.copyWrites,
      Flash.flagWrites, Eeprom.copyWrites, Eeprom.flagWrites, applyAll, Write.apply, ramEnv,
      Copy.CrcOk]
  · cases M <;> simp [Medium.saveenv, Medium.copyWrites, Medium.flagWrites, Flash.copyWrites,
      Flash.flagWrites, Eeprom.copyWrites, Eeprom.flagWrites, applyAll, Write.apply]
  · cases M <;> simp [Medium.saveenv, Medium.copyWrites, Medium.flagWrites, Flash.copyWrites,
      Flash.flagWrites, Eeprom.copyWrites, Eeprom.flagWrites, applyAll, Write.apply]

/-- **Power failures lose nothing.**  On every device that saves, power failures and boots
lead to, and however a save is cut off, `env_init` selects the environment from before the
save or the new one: a copy that was partly written is never used, and the default
environment only when it was used before. -/
theorem saveenv_powerFail (M : Medium) (dev : Slot → Copy) (events : List Event)
    (hflags : FlagsOk M dev) (hevents : Run.Along (step M) (Assumed M) (boot M dev) events) :
  ∃ s, Run.exec (step M) (boot M dev) events = some s
    ∧ ∀ (data : List Byte) (k : ℕ) (torn : Option Copy), TornBad M s data k torn →
      selected M (interrupted M s data k torn) = selected M s.dev
        ∨ selected M (interrupted M s data k torn) = some data
  := by
  have hstep : ∀ s a, Inv M s → Assumed M s a → ∃ s', step M s a = some s' ∧ Inv M s' := by
    rintro s (data | ⟨data, k, torn, boots⟩) hinv hassumed
    · exact ⟨_, rfl, hinv.save data⟩
    · exact ⟨_, rfl, inv_boot ((hinv.flagsOk_interrupted hassumed).bootCut boots)⟩
  obtain ⟨s, hs, hinv⟩ := Run.exec_invariant hstep (inv_boot hflags) hevents
  exact ⟨s, hs, fun data k torn htorn => hinv.selected_interrupted htorn⟩

/-- The environments `a=b` and `a=c`. -/
def textAB : List Byte := [97, 61, 98, 0, 0]

def textAC : List Byte := [97, 61, 99, 0, 0]

/-- A device with two copies of `a=b`, the first of them active. -/
def deviceAB : Slot → Copy
  | .first => { ramEnv textAB with flags := activeFlag }
  | .second => ramEnv textAB

/-- Two of the five bytes of `a=c` were written, and nothing of the checksum. -/
def tornData : Copy := ⟨0xffffffff, 0xff, [97, 61, 0xff, 0xff, 0xff]⟩

/-- The checksum and the flags of `a=c` were written, and nothing of the data. -/
def tornCrc : Copy := { ramEnv textAC with flags := activeFlag, data := textAB }

theorem flagsOk_deviceAB :
  FlagsOk M deviceAB
  := by
  rintro - (_ | _) -
  · exact .inr (.inl rfl)
  · exact .inl rfl

theorem saveenv_powerFail_torn :
  (∃ s, Run.exec (step .flash) (boot .flash deviceAB)
        [.powerFail textAC 1 (some tornData) [0], .save textAC] = some s
      ∧ ∀ (data : List Byte) (k : ℕ) (torn : Option Copy), TornBad .flash s data k torn →
        selected .flash (interrupted .flash s data k torn) = selected .flash s.dev
          ∨ selected .flash (interrupted .flash s data k torn) = some data)
    ∧ ∃ s, Run.exec (step .eeprom) (boot .eeprom deviceAB)
        [.powerFail textAC 0 (some tornCrc) [], .save textAC] = some s
      ∧ ∀ (data : List Byte) (k : ℕ) (torn : Option Copy), TornBad .eeprom s data k torn →
        selected .eeprom (interrupted .eeprom s data k torn) = selected .eeprom s.dev
          ∨ selected .eeprom (interrupted .eeprom s data k torn) = some data
  := by
  have hflash : ¬ (interrupted .flash (boot .flash deviceAB) textAC 1 (some tornData)
      (boot .flash deviceAB).cur.other).CrcOk := by decide +kernel
  have heeprom : ¬ (interrupted .eeprom (boot .eeprom deviceAB) textAC 0 (some tornCrc)
      (boot .eeprom deviceAB).cur.other).CrcOk := by decide +kernel
  constructor
  · apply saveenv_powerFail .flash deviceAB
      [.powerFail textAC 1 (some tornData) [0], .save textAC] flagsOk_deviceAB
    exact ⟨fun _ _ => hflash, fun _ _ => ⟨trivial, fun _ _ => trivial⟩⟩
  · apply saveenv_powerFail .eeprom deviceAB
      [.powerFail textAC 0 (some tornCrc) [], .save textAC] flagsOk_deviceAB
    exact ⟨fun _ _ => heeprom, fun _ _ => ⟨trivial, fun _ _ => trivial⟩⟩

end PowerFail

end Env
