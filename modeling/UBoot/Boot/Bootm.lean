import UBoot.Lib.Memory
import UBoot.Lib.Run

/-!
# The stages of `bootm`

`do_bootm_subcommand` of `common/cmd_bootm.c` runs the stages of `bootm` one command at a time.
How far a boot has come is a bit mask, `images.state`, and a stage runs when its bit is larger
than the mask.  The mask is 0 before the first start and after one that failed, and a bit is set
before its stage has run: `subcommands_in_order` says of which commands the stages still come in
their order.
-/

namespace Bootm

/-! ### The images -/

/-- `image_info_t`. -/
structure ImageInfo where
  start : Word
  endAddr : Word
  imageStart : Word
  imageLen : Word
  load : Word
  comp : Byte
  type : Byte
  os : Byte
  deriving DecidableEq

/-- `bootm_headers_t`, as far as the stages use it. -/
structure Images where
  os : ImageInfo
  ep : Word
  rdStart : Word
  rdEnd : Word
  ftAddr : Word
  ftLen : Word
  initrdStart : Word
  initrdEnd : Word
  state : ℕ
  deriving DecidableEq

/-- The images after `memset`. -/
def Images.zero : Images where
  os := ⟨0, 0, 0, 0, 0, 0, 0, 0⟩
  ep := 0
  rdStart := 0
  rdEnd := 0
  ftAddr := 0
  ftLen := 0
  initrdStart := 0
  initrdEnd := 0
  state := 0

/-- `BOOTM_STATE_START`. -/
def bootmStateStart : ℕ := 0x00000001

/-- `IH_TYPE_KERNEL`. -/
def ihTypeKernel : Byte := 2

/-- `IH_TYPE_MULTI`. -/
def ihTypeMulti : Byte := 4

/-- `IH_OS_LINUX`. -/
def ihOsLinux : Byte := 5

/-- What the functions that `bootm_start` calls find in memory. -/
structure Found where
  /-- `boot_get_kernel`. -/
  osHdr : Word
  imageStart : Word
  imageLen : Word
  /-- `genimg_get_format` is `IMAGE_FORMAT_LEGACY`. -/
  legacy : Bool
  type : Byte
  comp : Byte
  os : Byte
  imageEnd : Word
  load : Word
  /-- `legacy_hdr_valid`, and the entry point of the copied header. -/
  legacyHdrValid : Bool
  ep : Word
  /-- `boot_get_ramdisk`. -/
  ramdiskRet : ℤ
  rdStart : Word
  rdEnd : Word
  /-- `boot_get_fdt`. -/
  fdtRet : ℤ
  ftAddr : Word
  ftLen : Word

/-- `bootm_start`: the images, and the return code. -/
def bootmStart (f : Found) : Images × ℤ :=
  let images := Images.zero
  let images := { images with os.imageStart := f.imageStart, os.imageLen := f.imageLen }
  if f.imageLen = 0 then (images, 1)
  else if ¬ f.legacy then (images, 1)
  else
    let images :=
      { images with
        os.type := f.type
        os.comp := f.comp
        os.os := f.os
        os.endAddr := f.imageEnd
        os.load := f.load }
    if ¬ f.legacyHdrValid then (images, 1)
    else
      let images := { images with ep := f.ep }
      let linux := (f.type = ihTypeKernel ∨ f.type = ihTypeMulti) ∧ f.os = ihOsLinux
      if linux ∧ f.ramdiskRet ≠ 0 then (images, 1)
      else
        let images := if linux then { images with rdStart := f.rdStart, rdEnd := f.rdEnd } else images
        if linux ∧ f.fdtRet ≠ 0 then (images, 1)
        else
          let images := if linux then { images with ftAddr := f.ftAddr, ftLen := f.ftLen } else images
          ({ images with os.start := f.osHdr, state := bootmStateStart }, 0)

/-! ### Stages -/

/-- The stages after the start, in the order of `cmd_bootm_sub`. -/
inductive Stage where
  | loados
  | ramdisk
  | fdt
  | cmdline
  | bdt
  | prep
  | go
  deriving DecidableEq

/-- `BOOTM_STATE_LOADOS` and so on. -/
def Stage.state : Stage → ℕ
  | loados => 0x00000002
  | ramdisk => 0x00000004
  | fdt => 0x00000008
  | cmdline => 0x00000010
  | bdt => 0x00000020
  | prep => 0x00000040
  | go => 0x00000080

/-- What the functions that a stage calls return. -/
structure Calls where
  /-- The length that `gunzip` writes, or its failure. -/
  gunzip : Option Word
  /-- `boot_ramdisk_high`. -/
  ramdiskRet : ℤ
  initrdStart : Word
  initrdEnd : Word
  /-- `boot_relocate_fdt`. -/
  fdtRet : ℤ
  ftAddr : Word
  ftLen : Word
  /-- The function of the operating system. -/
  bootFn : ℤ

/-- `BOOTM_ERR_RESET`. -/
def bootmErrReset : ℤ := -1

/-- `BOOTM_ERR_OVERLAP`. -/
def bootmErrOverlap : ℤ := -2

/-- `BOOTM_ERR_UNIMPLEMENTED`. -/
def bootmErrUnimplemented : ℤ := -3

/-- The part of `bootm_load_os` behind the copy or the decompression. -/
def checkOverlap (os : ImageInfo) (loadEnd : Word) : ℤ :=
  if os.load < os.endAddr ∧ loadEnd > os.start then bootmErrOverlap else 0

/-- `bootm_load_os`, with the decompression of `CONFIG_GZIP`. -/
def bootmLoadOs (os : ImageInfo) (calls : Calls) : ℤ :=
  if os.comp = 0 then checkOverlap os (os.load + os.imageLen)
  else if os.comp = 1 then
    match calls.gunzip with
    | none => bootmErrReset
    | some imageLen => checkOverlap os (os.load + imageLen)
  else bootmErrUnimplemented

/-- The switch over the stages: the images, and the return code of the stage. -/
def runStage (images : Images) (stage : Stage) (calls : Calls) : Images × ℤ :=
  match stage with
  | .loados => (images, bootmLoadOs images.os calls)
  | .ramdisk =>
    ({ images with initrdStart := calls.initrdStart, initrdEnd := calls.initrdEnd },
      calls.ramdiskRet)
  | .fdt => ({ images with ftAddr := calls.ftAddr, ftLen := calls.ftLen }, calls.fdtRet)
  | .cmdline | .bdt | .prep => (images, calls.bootFn)
  | .go => (images, 0)

/-! ### Commands -/

/-- A command `bootm`, with what it finds. -/
inductive Command where
  | start (found : Found)
  | stage (stage : Stage) (calls : Calls)
  | unrecognized

/-- What a command has done: a start that succeeded or failed, or a stage that ran, with its
return code. -/
inductive Event where
  | start (ok : Bool)
  | ran (stage : Stage) (ret : ℤ)
  deriving DecidableEq

/-- The images, and what the commands have done so far. -/
structure State where
  images : Images
  trace : List Event

/-- Before the first command. -/
def State.initial : State := ⟨Images.zero, []⟩

/-- `do_bootm_subcommand`. -/
def doBootmSubcommand (s : State) : Command → State
  | .start found =>
    let r := bootmStart found
    ⟨r.1, s.trace ++ [.start (r.2 = 0)]⟩
  | .stage stage calls =>
    if stage.state ≤ s.images.state then s
    else
      let images := { s.images with state := s.images.state ||| stage.state }
      let r := runStage images stage calls
      ⟨r.1, s.trace ++ [.ran stage r.2]⟩
  | .unrecognized => s

/-! ### The order of the stages -/

/-- Where a boot stands: no start has succeeded, or one has, the stage `last` was the last one to
run since, and `loaded` says whether the image was loaded without an error. -/
inductive Progress where
  | idle
  | started (last : Option Stage) (loaded : Bool)
  deriving DecidableEq

/-- The stages come in their order, each at most once after a start, and `go` only when the image
was loaded. -/
def Progress.next : Progress → Event → Option Progress
  | _, .start false => some .idle
  | _, .start true => some (.started none false)
  | .idle, .ran _ _ => none
  | .started last loaded, .ran stage ret =>
    if (∀ l ∈ last, l.state < stage.state) ∧ (stage = .go → loaded = true) then
      some (.started (some stage) (loaded || (stage = .loados && ret = 0)))
    else none

/-- The events so far are in order. -/
def InOrder (trace : List Event) : Prop := ∃ p, Run.exec Progress.next .idle trace = some p

instance (trace : List Event) : Decidable (InOrder trace) :=
  decidable_of_iff ((Run.exec Progress.next .idle trace).isSome) (by
    rw [InOrder, Option.isSome_iff_exists])

/-- One command, as a step of a machine. -/
def step (s : State) (command : Command) : Option State := some (doBootmSubcommand s command)

/-- A stage that runs finds the bit of a start in the mask; `go` finds the bit of `loados` too, and
`loados` loads the image. -/
def Meets (s : State) : Command → Prop
  | .stage stage calls => s.images.state < stage.state →
      s.images.state.testBit 0 = true
      ∧ (stage = .go → s.images.state.testBit 1 = true)
      ∧ (stage = .loados → bootmLoadOs s.images.os calls = 0)
  | _ => True

instance (s : State) : (command : Command) → Decidable (Meets s command)
  | .start _ => .isTrue trivial
  | .stage stage calls => inferInstanceAs (Decidable (s.images.state < stage.state →
      s.images.state.testBit 0 = true
      ∧ (stage = .go → s.images.state.testBit 1 = true)
      ∧ (stage = .loados → bootmLoadOs s.images.os calls = 0)))
  | .unrecognized => .isTrue trivial

/-- What the mask says of the events so far. -/
inductive Inv (s : State) : Prop
  | idle : Run.exec Progress.next .idle s.trace = some .idle → s.images.state = 0 → Inv s
  | started (last : Option Stage) (loaded : Bool) :
      Run.exec Progress.next .idle s.trace = some (.started last loaded) →
      (∀ l ∈ last, l.state ≤ s.images.state) →
      (s.images.state.testBit 1 = true → loaded = true) → Inv s

theorem Inv.inOrder {s : State} (h : Inv s) :
  InOrder s.trace
  := by
  cases h with
  | idle hrun => exact ⟨_, hrun⟩
  | started last loaded hrun => exact ⟨_, hrun⟩

/-- A start that fails leaves the mask at 0. -/
theorem bootmStart_state (f : Found) :
  (bootmStart f).1.state = if (bootmStart f).2 = 0 then bootmStateStart else 0
  := by
  have hfail : ∀ {c : Prop} [Decidable c] {images : Images} {r : Images × ℤ},
      images.state = 0 → (r.1.state = if r.2 = 0 then bootmStateStart else 0) →
      ((if c then (images, (1 : ℤ)) else r).1.state
        = if (if c then (images, (1 : ℤ)) else r).2 = 0 then bootmStateStart else 0) := by
    intro c _ images r himages hr
    by_cases hc : c
    · rw [if_pos hc, if_neg one_ne_zero]
      exact himages
    · rw [if_neg hc]
      exact hr
  apply hfail rfl
  apply hfail rfl
  apply hfail rfl
  apply hfail rfl
  apply hfail
  · rw [apply_ite Images.state]
    exact ite_self _
  · rfl

theorem runStage_state (images : Images) (stage : Stage) (calls : Calls) :
  (runStage images stage calls).1.state = images.state
  := by
  cases stage <;> rfl

theorem exec_snoc {trace : List Event} {e : Event} {p : Progress}
    (h : Run.exec Progress.next .idle trace = some p) :
  Run.exec Progress.next .idle (trace ++ [e]) = p.next e
  := by
  rw [Run.exec_append, h, Option.bind_some, Run.exec]
  cases p.next e <;> rfl

theorem inv_start (s : State) (h : InOrder s.trace) (found : Found) :
  Inv (doBootmSubcommand s (.start found))
  := by
  obtain ⟨p, hp⟩ := h
  have hstate := bootmStart_state found
  by_cases hret : (bootmStart found).2 = 0
  · rw [if_pos hret] at hstate
    apply Inv.started none false
    · simp only [doBootmSubcommand, hret, decide_true]
      rw [exec_snoc hp]
      cases p <;> rfl
    · simp
    · intro hbit
      rw [doBootmSubcommand] at hbit
      simp only [hstate, bootmStateStart] at hbit
      exact absurd hbit (by decide)
  · rw [if_neg hret] at hstate
    apply Inv.idle
    · simp only [doBootmSubcommand, hret, decide_false]
      rw [exec_snoc hp]
      cases p <;> rfl
    · exact hstate

/-- A stage that runs after a start. -/
theorem inv_stage {s : State} {stage : Stage} {calls : Calls} {last : Option Stage} {loaded : Bool}
    (hrun : Run.exec Progress.next .idle s.trace = some (.started last loaded))
    (hlast : ∀ l ∈ last, l.state ≤ s.images.state)
    (hloaded : s.images.state.testBit 1 = true → loaded = true)
    (hlt : s.images.state < stage.state)
    (hgo : stage = .go → s.images.state.testBit 1 = true)
    (hload : stage = .loados → bootmLoadOs s.images.os calls = 0) :
  Inv (doBootmSubcommand s (.stage stage calls))
  := by
  obtain ⟨images, himages⟩ :
      ∃ images, images = { s.images with state := s.images.state ||| stage.state } := ⟨_, rfl⟩
  have hstate : images.state = s.images.state ||| stage.state := by rw [himages]
  have heq : doBootmSubcommand s (.stage stage calls) =
      ⟨(runStage images stage calls).1, s.trace ++ [.ran stage (runStage images stage calls).2]⟩ := by
    rw [himages]
    exact if_neg (Nat.not_le.mpr hlt)
  have hzero : stage = .loados → (runStage images stage calls).2 = 0 := by
    rintro rfl
    rw [himages]
    exact hload rfl
  generalize (runStage images stage calls).2 = ret at heq hzero
  have hnext : Progress.next (.started last loaded) (.ran stage ret)
      = some (.started (some stage) (loaded || (stage = .loados && ret = 0))) := by
    rw [Progress.next, if_pos]
    refine ⟨?_, fun h => hloaded (hgo h)⟩
    intro l hl
    exact (hlast l hl).trans_lt hlt
  rw [heq]
  apply Inv.started (some stage) (loaded || (stage = .loados && ret = 0))
  · rw [exec_snoc hrun, hnext]
  · rintro l ⟨⟩
    rw [runStage_state, hstate]
    exact Nat.right_le_or
  · rw [runStage_state, hstate]
    intro hbit
    rw [Nat.testBit_or, Bool.or_eq_true] at hbit
    obtain hbit | hbit := hbit
    · rw [hloaded hbit, Bool.true_or]
    · -- only the bit of `loados` is the second one
      have hstage : stage = .loados := by
        cases stage <;> first | rfl | exact absurd hbit (by decide)
      rw [hzero hstage, hstage, decide_eq_true rfl, decide_eq_true rfl, Bool.true_and, Bool.or_true]

/-- One command. -/
theorem inv_step {s : State} (h : Inv s) {command : Command} (hmeets : Meets s command) :
  Inv (doBootmSubcommand s command)
  := by
  cases command with
  | start found => exact inv_start s h.inOrder found
  | unrecognized => exact h
  | stage stage calls =>
    by_cases hlt : s.images.state < stage.state
    · obtain ⟨hstart, hgo, hload⟩ := hmeets hlt
      cases h with
      | idle _ hzero =>
        rw [hzero] at hstart
        exact absurd hstart (by decide)
      | started last loaded hrun hlast hloaded =>
        exact inv_stage hrun hlast hloaded hlt hgo hload
    · rw [doBootmSubcommand, if_pos (by omega)]
      exact h

/-- Over every sequence of commands: each stage runs at most once after a start that succeeded and
in the listed order, none before one, and `go` only after the image was loaded, as long as a stage
finds the bit of a start in the mask, `go` the bit of `loados`, and no `loados` fails. -/
theorem subcommands_in_order (commands : List Command)
    (h : Run.Along step Meets State.initial commands) (before : List Command)
    (hbefore : before <+: commands) :
  ∃ s, Run.exec step State.initial before = some s ∧ InOrder s.trace
  := by
  obtain ⟨after, rfl⟩ := hbefore
  have hinit : Inv State.initial := .idle rfl rfl
  obtain ⟨s, hs, hinv⟩ := Run.exec_invariant (I := Inv)
    (fun s command hinv hmeets => ⟨_, rfl, inv_step hinv hmeets⟩) hinit h.of_append
  exact ⟨s, hs, hinv.inOrder⟩

/-- A Linux image that is loaded at 0. -/
def foundLinux : Found where
  osHdr := 0x1000000
  imageStart := 0x1000040
  imageLen := 0x1000
  legacy := true
  type := ihTypeKernel
  comp := 0
  os := ihOsLinux
  imageEnd := 0x1001040
  load := 0
  legacyHdrValid := true
  ep := 0
  ramdiskRet := 0
  rdStart := 0
  rdEnd := 0
  fdtRet := 0
  ftAddr := 0
  ftLen := 0

/-- Calls that all succeed. -/
def callsOk : Calls where
  gunzip := none
  ramdiskRet := 0
  initrdStart := 0
  initrdEnd := 0
  fdtRet := 0
  ftAddr := 0
  ftLen := 0
  bootFn := 0

/-- All the stages one after the other. -/
theorem subcommands_in_order_linux :
  ∃ s, Run.exec step State.initial
      (.start foundLinux :: [.loados, .ramdisk, .fdt, .cmdline, .bdt, .prep, .go].map
        fun stage => .stage stage callsOk) = some s
    ∧ InOrder s.trace
  := subcommands_in_order
    (.start foundLinux :: [.loados, .ramdisk, .fdt, .cmdline, .bdt, .prep, .go].map
      fun stage => .stage stage callsOk)
    (by decide) _ List.prefix_rfl

/-- `go` runs before any start, after a start without `loados`, and after a `loados` that failed
because the image is compressed and cannot be decompressed. -/
theorem go_out_of_order :
  (∃ s, Run.exec step State.initial [.stage .go callsOk] = some s ∧ ¬ InOrder s.trace)
    ∧ (∃ s, Run.exec step State.initial [.start foundLinux, .stage .go callsOk] = some s
      ∧ ¬ InOrder s.trace)
    ∧ ∃ s, Run.exec step State.initial [.start { foundLinux with comp := 1 },
        .stage .loados callsOk, .stage .go callsOk] = some s ∧ ¬ InOrder s.trace
  := by
  refine ⟨⟨_, rfl, ?_⟩, ⟨_, rfl, ?_⟩, ⟨_, rfl, ?_⟩⟩ <;> decide

end Bootm
