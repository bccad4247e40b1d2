import UBoot.Lib.Run
import UBoot.Env.FiniteMap

/-!
# The environment in an EEPROM

Saving the environment to an EEPROM and finding it again at the next boot
(`common/env_eeprom.c` without a redundant copy, and the parts of `common/env_common.c`
around it), after an arbitrary sequence of calls of `_do_setenv`.

`_do_setenv` leaves through its overflow exit without renewing the checksum.  When the
call has deleted the old value before that, the data have changed under the checksum
(`DeletesAndOverflows`); every other call leaves a right checksum right
(`doSetenv_crcOk`), and what is saved after such calls is found again
(`setenvs_saveenv_envInit`).
-/

namespace Env

open Memory

/-! ### The device -/

namespace Eeprom

/-- The fields of the global data that concern the environment. -/
structure GlobalData where
  envAddr : ℕ
  envValid : ℕ
  deriving DecidableEq

/-- `saveenv`: the device after the whole of `*env_ptr` is written at `off`. -/
def saveenv (c : Config) (off : ℕ) (dev : ℕ → Byte) (env : Image) : ℕ → Byte :=
  store dev off (wordBytes env.crc ++ read env.data 0 c.envSize)

/-- The loop of `env_init` over the data, through a buffer of 64 bytes. -/
def crcLoop (dev : ℕ → Byte) (new : Word) (len off : ℕ) : Word :=
  if len = 0 then new
  else
    let n := if len > 64 then 64 else len
    crcLoop dev (Crc32.crc32 new (read dev off n)) (len - n) (off + n)
  termination_by len
  decreasing_by split <;> omega

/-- `env_init`, with the data area 4 bytes behind the checksum. -/
def envInit (c : Config) (off : ℕ) (dev : ℕ → Byte) : GlobalData :=
  let crc := bytesWord (read dev off 4)
  let new := crcLoop dev 0 c.envSize (off + 4)
  if crc = new then ⟨4, 1⟩ else ⟨0, 0⟩

/-- `env_get_char_spec`. -/
def envGetCharSpec (off : ℕ) (dev : ℕ → Byte) (index : ℕ) : Byte := dev (off + index + 4)

/-- `env_get_char_init`: the device when the checksum was right, else the default
environment. -/
def envGetCharInit (gd : GlobalData) (default : ℕ → Byte) (off : ℕ) (dev : ℕ → Byte)
    (index : ℕ) : Byte :=
  if gd.envValid ≠ 0 then envGetCharSpec off dev index else default index

/-- `env_relocate_spec` into the buffer `env`. -/
def envRelocateSpec (c : Config) (off : ℕ) (dev : ℕ → Byte) (env : Image) : Image where
  crc := bytesWord (read dev off 4)
  data := store env.data 0 (read dev (off + 4) c.envSize)

theorem crcLoop_eq (dev : ℕ → Byte) (new : Word) (len off : ℕ) :
  crcLoop dev new len off = Crc32.crc32 new (read dev off len)
  := by
  fun_induction crcLoop dev new len off with
  | case1 new off => rw [Memory.read, Crc32.crc32_nil]
  | case2 new len off hlen n ih =>
    have hn : n ≤ len := by
      simp only [n]
      split <;> omega
    rw [ih, ← Crc32.crc32_append, ← read_add, Nat.add_sub_cancel' hn]

/-- What `saveenv` has written. -/
theorem holds_saveenv (c : Config) (off : ℕ) (dev : ℕ → Byte) (env : Image) :
  read (saveenv c off dev env) off 4 = wordBytes env.crc
    ∧ read (saveenv c off dev env) (off + 4) c.envSize = read env.data 0 c.envSize
  := by
  have h := holds_store dev off (wordBytes env.crc ++ read env.data 0 c.envSize)
  rw [holds_append] at h
  have hcrc := h.1.read_eq
  have hdata := h.2.read_eq
  rw [length_read] at hdata
  exact ⟨hcrc, hdata⟩

/-- What was saved with a right checksum is accepted at the next boot. -/
theorem envInit_saveenv (c : Config) (off : ℕ) (dev : ℕ → Byte) (env : Image) :
  envInit c off (saveenv c off dev env)
    = if env.crc = Crc32.crc32 0 (read env.data 0 c.envSize) then ⟨4, 1⟩ else ⟨0, 0⟩
  := by
  obtain ⟨hcrc, hdata⟩ := holds_saveenv c off dev env
  simp only [envInit, hcrc, bytesWord_wordBytes, crcLoop_eq, hdata]

/-- The data area on the device is the one that was saved. -/
theorem envGetCharSpec_saveenv (c : Config) (off : ℕ) (dev : ℕ → Byte) (env : Image) {i : ℕ}
    (hi : i < c.envSize) :
  envGetCharSpec off (saveenv c off dev env) i = env.data i
  := by
  have hdata := (holds_saveenv c off dev env).2
  have h := getElem_read (saveenv c off dev env) (off + 4) c.envSize i (by simpa using hi)
  simp only [hdata, getElem_read] at h
  rw [envGetCharSpec, show off + i + 4 = off + 4 + i by omega, ← h, Nat.zero_add]

theorem envRelocateSpec_saveenv (c : Config) (off : ℕ) (dev : ℕ → Byte) (env buf : Image) :
  (envRelocateSpec c off (saveenv c off dev env) buf).crc = env.crc
    ∧ ∀ i < c.envSize, (envRelocateSpec c off (saveenv c off dev env) buf).data i = env.data i
  := by
  obtain ⟨hcrc, hdata⟩ := holds_saveenv c off dev env
  constructor
  · rw [envRelocateSpec, hcrc, bytesWord_wordBytes]
  · intro i hi
    have h := holds_store buf.data 0 (read env.data 0 c.envSize)
    rw [holds_iff_getElem] at h
    have hi' := h i (by simpa using hi)
    rw [getElem_read, Nat.zero_add] at hi'
    simp only [envRelocateSpec, hdata, hi']

end Eeprom

/-! ### Calls of `_do_setenv` -/

variable {c : Config} {g : Globals} {es : List Entry}

/-- The arguments of one call of `_do_setenv`, and the drivers it finds. -/
structure Call where
  devices : Devices
  flag : Word
  name : List Byte
  args : List (List Byte)
  isStr_name : IsStr name
  isStr_args : ∀ a ∈ args, IsStr a

/-- The state after a call, whatever it returns. -/
def setenvStep (c : Config) (g : Globals) (call : Call) : Option Globals :=
  (doSetenv c call.devices call.flag g call.name call.args).map Prod.snd

/-- The checks of `_do_setenv` let the call through to the change of the environment. -/
structure Passes (c : Config) (g : Globals) (call : Call) : Prop where
  name : equals ∉ call.name
  console : consoleCheck c call.devices call.name call.args = none
  unprotected : ∀ f, findVar g.env.data c.envSize call.name c.envSize 0 = some (some f) →
    protectedVar c call.flag g.env.data call.name f.oldval = false
  baudrate : ∀ f, findVar g.env.data c.envSize call.name c.envSize 0 = some (some f) →
    ∀ b ∈ newBaudrate call.devices call.name call.args, b ∈ c.baudrateTable

/-- The call replaces a variable whose new definition does not fit: it deletes the old
value and leaves through the overflow exit. -/
def DeletesAndOverflows (c : Config) (g : Globals) (call : Call) : Prop :=
  Passes c g call ∧ ∃ es, WellFormed c.envSize g.env.data es ∧ lookup es call.name ≠ none
    ∧ call.args ≠ [] ∧ ¬ Fits c.envSize (others es call.name) call.name call.args

/-- The replies of a call that gets to the change of the environment. -/
def Changes (r : Reply) : Prop := r = .ok ∨ r = .overflow

theorem changeVar_passes {call : Call} {r : Reply} {g' g₁ : Globals} {found : Option Found}
    (hr : Changes r)
    (h : changeVar c call.devices call.flag g₁ call.name call.args found = some (r, g')) :
  consoleCheck c call.devices call.name call.args = none
    ∧ ∀ f, found = some f → protectedVar c call.flag g₁.env.data call.name f.oldval = false
      ∧ ∀ b ∈ newBaudrate call.devices call.name call.args, b ∈ c.baudrateTable
  := by
  have hrefused {r' : Reply} (hok : r' ≠ .ok) (hov : r' ≠ .overflow) : r' ≠ r := by
    rintro rfl
    exact hr.elim hok hov
  cases hcons : consoleCheck c call.devices call.name call.args with
  | some r' =>
    simp only [changeVar, hcons, Option.some.injEq, Prod.mk.injEq] at h
    obtain ⟨hok, hov, -⟩ := consoleCheck_some hcons
    exact absurd h.1 (hrefused hok hov)
  | none =>
    refine ⟨rfl, ?_⟩
    rintro f rfl
    simp only [changeVar, hcons] at h
    split at h
    · rw [Option.some.injEq, Prod.mk.injEq] at h
      exact absurd h.1 (hrefused (by simp) (by simp))
    · rename_i hprot
      refine ⟨by simpa using hprot, ?_⟩
      intro b hb
      rw [Option.mem_def] at hb
      simp only [hb] at h
      by_contra hnot
      rw [if_pos hnot, Option.some.injEq, Prod.mk.injEq] at h
      exact absurd h.1 (hrefused (by simp) (by simp))

/-- A call that changes the environment has passed the checks. -/
theorem passes_of_changes {call : Call} {r : Reply} {g' : Globals} (hr : Changes r)
    (h : doSetenv c call.devices call.flag g call.name call.args = some (r, g')) :
  Passes c g call
  := by
  have hrefused {r' : Reply} (hok : r' ≠ .ok) (hov : r' ≠ .overflow) : r' ≠ r := by
    rintro rfl
    exact hr.elim hok hov
  rw [doSetenv] at h
  split_ifs at h with hram heq
  · rw [Option.some.injEq, Prod.mk.injEq] at h
    exact absurd h.1 (hrefused (by simp) (by simp))
  · obtain ⟨found, hfind, hchange⟩ := Option.bind_eq_some_iff.mp h
    obtain ⟨hcons, hfound⟩ := changeVar_passes hr hchange
    refine ⟨heq, hcons, ?_, ?_⟩
    · intro f hf
      rw [hf, Option.some.injEq] at hfind
      exact (hfound f hfind.symm).1
    · intro f hf
      rw [hf, Option.some.injEq] at hfind
      exact (hfound f hfind.symm).2
  · rw [Option.some.injEq, Prod.mk.injEq] at h
    exact absurd h.1 (hrefused (by simp) (by simp))

theorem defineVar_changes {name : List Byte} {args : List (List Byte)} {r : Reply} {g' : Globals}
    (h : defineVar c g name args = some (r, g')) :
  Changes r
  := by
  rw [defineVar] at h
  split_ifs at h with hargs
  · rw [Option.some.injEq, Prod.mk.injEq] at h
    exact .inl h.1.symm
  · obtain ⟨env, -, h⟩ := Option.bind_eq_some_iff.mp h
    simp only at h
    split_ifs at h
    all_goals
      rw [Option.some.injEq, Prod.mk.injEq] at h
      first | exact .inr h.1.symm | exact .inl h.1.symm

/-- A call that passes the checks changes the environment. -/
theorem Passes.changes {call : Call} {r : Reply} {g' : Globals} (hp : Passes c g call)
    (hram : g.inRam = true)
    (h : doSetenv c call.devices call.flag g call.name call.args = some (r, g')) :
  Changes r
  := by
  rw [doSetenv, if_neg (by simp [hram]), if_neg hp.name] at h
  obtain ⟨found, hfind, h⟩ := Option.bind_eq_some_iff.mp h
  simp only [changeVar, hp.console] at h
  cases found with
  | none => exact defineVar_changes h
  | some f =>
    simp only [hp.unprotected f hfind, Bool.false_eq_true, if_false] at h
    cases hbaud : newBaudrate call.devices call.name call.args with
    | none =>
      simp only [hbaud] at h
      obtain ⟨d, -, h⟩ := Option.bind_eq_some_iff.mp h
      exact defineVar_changes h
    | some b =>
      simp only [hbaud, hp.baudrate f hfind b hbaud, not_true, if_false] at h
      obtain ⟨d, -, h⟩ := Option.bind_eq_some_iff.mp h
      exact defineVar_changes h

/-- The environment in RAM is well formed and its checksum is right. -/
structure Sound (c : Config) (g : Globals) : Prop where
  inRam : g.inRam = true
  wellFormed : ∃ es, WellFormed c.envSize g.env.data es
  crcOk : CrcOk c g

/-- A call keeps the checksum right, unless it deletes a value and overflows. -/
theorem doSetenv_crcOk (call : Call) (h : Sound c g) (hcall : ¬ DeletesAndOverflows c g call) :
  ∃ g', setenvStep c g call = some g' ∧ Sound c g'
  := by
  obtain ⟨hram, ⟨es, hwf⟩, hcrc⟩ := h
  obtain ⟨r, g', heq, heff, -, hram', -⟩ :=
    doSetenv_effect (x := call.devices) hram hwf call.isStr_name call.isStr_args
  have hkeep (henv : g'.env = g.env) :
      (∃ es', WellFormed c.envSize g'.env.data es') ∧ CrcOk c g' := by
    unfold CrcOk
    rw [henv]
    exact ⟨⟨es, hwf⟩, hcrc⟩
  have hsound : (∃ es', WellFormed c.envSize g'.env.data es') ∧ CrcOk c g' := by
    cases heff with
    | refused henv _ _ => exact hkeep henv
    | deleted _ hwf' hcrc' => exact ⟨⟨_, hwf'⟩, hcrc'⟩
    | defined _ _ _ _ hwf' hcrc' => exact ⟨⟨_, hwf'⟩, hcrc'⟩
    | overflow hne hfits _ _ hsame =>
      -- the variable was not defined, so nothing was deleted
      apply hkeep
      apply hsame
      by_contra hsome
      exact hcall ⟨passes_of_changes (.inr rfl) heq, es, hwf, hsome, hne, hfits⟩
  exact ⟨g', by rw [setenvStep, heq, Option.map_some], hram', hsound.1, hsound.2⟩

/-! ### Saving and booting -/

theorem WellFormed.congr {size : ℕ} {d d' : ℕ → Byte} (h : WellFormed size d es)
    (hd : ∀ i < size, d' i = d i) :
  WellFormed size d' es
  := by
  refine ⟨h.nodup, h.fits, ?_⟩
  apply h.holds.congr
  intro q _ hq
  apply hd
  have := h.fits
  omega

/-- The environment of `g`, saved anywhere on any device, is accepted at the next boot, and
the variables found then are the ones in RAM, before the relocation and after it. -/
def SurvivesReboot (c : Config) (g : Globals) : Prop :=
  ∀ (off : ℕ) (dev default : ℕ → Byte) (buf : Image),
    (Eeprom.envInit c off (Eeprom.saveenv c off dev g.env)).envValid = 1
    ∧ (∀ m, IsName m →
        getenvStr (Eeprom.envGetCharInit (Eeprom.envInit c off (Eeprom.saveenv c off dev g.env))
            default off (Eeprom.saveenv c off dev g.env)) c.configEnvSize m
          = getenvRam c g m)
    ∧ ∀ m, IsName m →
        getenvStr (Eeprom.envRelocateSpec c off (Eeprom.saveenv c off dev g.env) buf).data
            c.configEnvSize m
          = getenvRam c g m

theorem Sound.survivesReboot (h : Sound c g) :
  SurvivesReboot c g
  := by
  intro off dev default buf
  obtain ⟨-, ⟨es, hwf⟩, hcrc⟩ := h
  have hinit := Eeprom.envInit_saveenv c off dev g.env
  unfold CrcOk at hcrc
  rw [if_pos hcrc] at hinit
  have hsize : c.envSize ≤ c.configEnvSize := Nat.le_add_right _ _
  refine ⟨by rw [hinit], ?_, ?_⟩
  · intro m hm
    rw [getenvRam_eq hwf hm]
    apply WellFormed.getenvStr_eq _ hsize hm
    apply hwf.congr
    intro i hi
    rw [hinit]
    exact Eeprom.envGetCharSpec_saveenv c off dev g.env hi
  · intro m hm
    rw [getenvRam_eq hwf hm]
    apply WellFormed.getenvStr_eq _ hsize hm
    apply hwf.congr
    exact (Eeprom.envRelocateSpec_saveenv c off dev g.env buf).2

/-- **The checksum along a run.**  In a sequence of calls none of which deletes a value and
overflows, the checksum is right after every call, and an environment that is saved then
is found again at the next boot. -/
theorem setenvs_saveenv_envInit (c : Config) (g : Globals) (calls : List Call)
    (hram : g.inRam = true) (hwf : ∃ es, WellFormed c.envSize g.env.data es) (hcrc : CrcOk c g)
    (hcalls : Run.Along (setenvStep c) (fun g call => ¬ DeletesAndOverflows c g call) g calls) :
  ∀ before, before <+: calls →
    ∃ g', Run.exec (setenvStep c) g before = some g' ∧ CrcOk c g' ∧ SurvivesReboot c g'
  := by
  rintro before ⟨after, rfl⟩
  obtain ⟨g', hg', hsound⟩ := Run.exec_invariant (fun g call => doSetenv_crcOk call)
    (⟨hram, hwf, hcrc⟩ : Sound c g) hcalls.of_append
  exact ⟨g', hg', hsound.crcOk, hsound.survivesReboot⟩

theorem isStr_b :
  IsStr (ascii "b")
  := by decide

theorem isStr_xy :
  ∀ a ∈ [ascii "x", ascii "y"], IsStr a
  := by decide

/-- The call `setenv b x y`. -/
def callB : Call where
  devices := .accepting
  flag := 0
  name := ascii "b"
  args := [ascii "x", ascii "y"]
  isStr_name := isStr_b
  isStr_args := isStr_xy

theorem setenvs_saveenv_envInit_sam460ex :
  ∃ g', Run.exec (setenvStep sam460ex) (.ofEntries sam460ex [entryAB]) [callB] = some g'
    ∧ CrcOk sam460ex g' ∧ SurvivesReboot sam460ex g'
  := by
  have hwf : WellFormed sam460ex.envSize (Globals.ofEntries sam460ex [entryAB]).env.data
      [entryAB] := wellFormed_ofEntries (by decide) (by decide)
  apply setenvs_saveenv_envInit sam460ex (.ofEntries sam460ex [entryAB]) [callB] rfl ⟨_, hwf⟩
    crcOk_ofEntries _ [callB] (List.prefix_refl _)
  refine ⟨?_, fun _ _ => trivial⟩
  rintro ⟨-, es, hes, hsome, -⟩
  obtain rfl := hes.unique hwf
  exact hsome (by decide)

/-- A call `setenv a xx…x` with `n` times the letter `x`. -/
def callA (n : ℕ) : Call where
  devices := .accepting
  flag := 0
  name := ascii "a"
  args := [List.replicate n 120]
  isStr_name := by decide
  isStr_args := by simp [IsStr]

/-- The area `a=b` after the deletion of `a`. -/
def deletedAB : ℕ → Byte :=
  Function.update (Function.update (store (fun _ => 0) 0 (encode [entryAB])) 0 0) 1 0

/-- The overflow exit: the area has changed, the checksum has not. -/
theorem setenvStep_callA {n : ℕ} (hn : 1020 ≤ n) :
  setenvStep sam460ex (.ofEntries sam460ex [entryAB]) (callA n)
    = some ({ Globals.ofEntries sam460ex [entryAB] with envId := 2 }.withData deletedAB)
  := by
  have hwf : WellFormed sam460ex.envSize (Globals.ofEntries sam460ex [entryAB]).env.data
      ([] ++ [entryAB]) := wellFormed_ofEntries (by decide) (by decide)
  obtain ⟨oldval, hfind⟩ := findVar_some hwf (by simp)
  have hdel : deleteVar (Globals.ofEntries sam460ex [entryAB]).env.data sam460ex.envSize
      (flatten []).length ((flatten []).length + entryAB.bytes.length) = some deletedAB := rfl
  have hover : defineVar sam460ex
      ({ Globals.ofEntries sam460ex [entryAB] with envId := 2 }.withData deletedAB)
      (ascii "a") (callA n).args = some (.overflow,
        { Globals.ofEntries sam460ex [entryAB] with envId := 2 }.withData deletedAB) := by
    have hempty : WellFormed sam460ex.envSize deletedAB [] := ⟨by simp, by decide, rfl, rfl, trivial⟩
    apply defineVar_overflow hempty
    · simp [callA]
    · simp only [Fits, callA, sam460ex, join, List.length_append, List.length_cons,
        List.length_replicate]
      omega
  have hplain : Plain (ascii "a") := by decide
  have hname : equals ∉ ascii "a" := by decide
  have hchange : changeVar sam460ex .accepting 0
      { Globals.ofEntries sam460ex [entryAB] with envId := 2 } (ascii "a") (callA n).args
      (some ⟨oldval, (flatten []).length, (flatten []).length + entryAB.bytes.length⟩)
      = some (.overflow,
        { Globals.ofEntries sam460ex [entryAB] with envId := 2 }.withData deletedAB) := by
    simp only [changeVar, hplain.consoleCheck_eq, hplain.protectedVar_eq, hplain.newBaudrate_eq]
    rw [if_neg (by simp), hdel]
    exact hover
  have hset : doSetenv sam460ex .accepting 0 (.ofEntries sam460ex [entryAB]) (ascii "a")
      (callA n).args = some (.overflow,
        { Globals.ofEntries sam460ex [entryAB] with envId := 2 }.withData deletedAB) := by
    rw [doSetenv, if_neg (by simp [Globals.ofEntries, envCrcUpdate]), if_neg hname]
    exact Option.bind_eq_some_iff.mpr ⟨_, hfind, hchange⟩
  exact congrArg (Option.map Prod.snd) hset

/-- Deleting `a` changes the checksum of the area. -/
theorem crc32_deletedAB :
  Crc32.crc32 0 (read (Globals.ofEntries sam460ex [entryAB]).env.data 0 sam460ex.envSize)
    ≠ Crc32.crc32 0 (read deletedAB 0 sam460ex.envSize)
  := by
  have hrest : read deletedAB (0 + 2) 1018
      = read (Globals.ofEntries sam460ex [entryAB]).env.data (0 + 2) 1018 := by
    apply read_congr
    intro q hq _
    rw [deletedAB, Function.update_of_ne (by omega), Function.update_of_ne (by omega)]
    rfl
  rw [show sam460ex.envSize = 2 + 1018 from rfl, read_add, read_add, hrest, Ne,
    Crc32.crc32_append_right_inj]
  decide +kernel

/-- A replacement that does not fit breaks the checksum, and the saved environment is
given up for the default one at the next boot. -/
theorem setenv_overflow_breaks_crc :
  WellFormed sam460ex.envSize (Globals.ofEntries sam460ex [entryAB]).env.data [entryAB]
    ∧ CrcOk sam460ex (.ofEntries sam460ex [entryAB])
    ∧ ∃ g', Run.exec (setenvStep sam460ex) (.ofEntries sam460ex [entryAB]) [callA 1020] = some g'
      ∧ ¬ CrcOk sam460ex g'
      ∧ ∀ off dev,
          (Eeprom.envInit sam460ex off (Eeprom.saveenv sam460ex off dev g'.env)).envValid = 0
  := by
  refine ⟨wellFormed_ofEntries (by decide) (by decide), crcOk_ofEntries,
    { Globals.ofEntries sam460ex [entryAB] with envId := 2 }.withData deletedAB, ?_, ?_, ?_⟩
  · rw [Run.exec, setenvStep_callA le_rfl]
    rfl
  · exact crc32_deletedAB
  · intro off dev
    rw [Eeprom.envInit_saveenv, if_neg]
    exact crc32_deletedAB

end Env
