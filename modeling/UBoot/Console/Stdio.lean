import UBoot.Lib.Memory
import UBoot.Lib.Run

/-!
# The console devices

`common/stdio.c` keeps a list of devices, `stdio_devices` says which of them are `stdin`, `stdout`
and `stderr`, and `console_setfile` of `common/console.c` also puts the functions of a new `stdin`
or `stdout` into the jump table for other applications.  When an assigned device is taken off the
list by force, `stdio_deregister_dev` assigns `nulldev` in its place, by the names of the devices;
the jump table still has the functions of the old device.

The model is that of `CONFIG_SYS_STDIO_DEREGISTER` without `CONFIG_CONSOLE_MUX`.
-/

namespace Stdio

/-- `stdin`, `stdout` and `stderr`. -/
inductive File where
  | stdin
  | stdout
  | stderr
  deriving DecidableEq

/-- `struct stdio_dev`; `addr` is where it is, and a function is known by its address. -/
structure Dev where
  addr : ℕ
  name : List Byte
  flags : Word
  hasStart : Bool
  getc : ℕ
  tstc : ℕ
  putc : ℕ
  puts : ℕ
  deriving DecidableEq

/-- The entries of the jump table that `console_setfile` writes. -/
structure Jump where
  getc : ℕ
  tstc : ℕ
  putc : ℕ
  puts : ℕ
  deriving DecidableEq

/-- The list `devs`, the array `stdio_devices`, the jump table, and the next address of `calloc`. -/
structure State where
  devs : List Dev
  devices : File → Dev
  jt : Jump
  next : ℕ

/-- `stdio_get_by_name`. -/
def getByName (s : State) (name : List Byte) : Option Dev := s.devs.find? fun dev => dev.name = name

/-- `stdio_register`; `calloc` says whether there is memory for the copy. -/
def register (s : State) (dev : Dev) (calloc : Bool) : State × ℤ :=
  if calloc then
    ({ s with devs := s.devs ++ [{ dev with addr := s.next }], next := s.next + 1 }, 0)
  else (s, -1)

/-- The monitor functions, when a file has a new device. -/
def setJump (jt : Jump) (dev : Dev) : File → Jump
  | .stdin => { jt with getc := dev.getc, tstc := dev.tstc }
  | .stdout => { jt with putc := dev.putc, puts := dev.puts }
  | .stderr => jt

/-- `console_setfile` for a device; `start` is what its function `start` returns. -/
def setfile (s : State) (file : File) (dev : Dev) (start : ℤ) : State × ℤ :=
  if dev.hasStart ∧ start < 0 then (s, start)
  else
    ({ s with
      devices := Function.update s.devices file dev
      jt := setJump s.jt dev file },
      if dev.hasStart then start else 0)

/-- The file that a number stands for. -/
def fileOf (file : ℤ) : Option File :=
  if file = 0 then some .stdin
  else if file = 1 then some .stdout
  else if file = 2 then some .stderr
  else none

/-- `DEV_FLAGS_INPUT` and `DEV_FLAGS_OUTPUT`, as `console_assign` asks for them. -/
def flag : File → Word
  | .stdin => 1
  | .stdout => 2
  | .stderr => 2

/-- `search_device`. -/
def searchDevice (s : State) (flags : Word) (name : List Byte) : Option Dev :=
  match getByName s name with
  | some dev => if dev.flags &&& flags ≠ 0 then some dev else none
  | none => none

/-- `console_assign`. -/
def assign (s : State) (file : ℤ) (name : List Byte) (start : ℤ) : State × ℤ :=
  match fileOf file with
  | none => (s, -1)
  | some file =>
    match searchDevice s (flag file) name with
    | none => (s, -1)
    | some dev => setfile s file dev start

/-- The name of the device that is empty. -/
def nulldev : List Byte := ascii "nulldev"

/-- A device is assigned, as the first loop of `stdio_deregister_dev` finds out. -/
def assigned (s : State) (dev : Dev) : Bool :=
  [File.stdin, .stdout, .stderr].any fun file => (s.devices file).addr = dev.addr

/-- The second loop of `stdio_deregister_dev`: the devices are found again by their names. -/
def reassign (names : File → List Byte) (devs : List Dev) (devices : File → Dev) : File → Dev :=
  devs.foldl (fun devices dev file => if dev.name = names file then dev else devices file) devices

/-- `stdio_deregister_dev`. -/
def deregisterDev (s : State) (dev : Dev) (force : Bool) : State × ℤ :=
  if force = false ∧ assigned s dev then (s, -1)
  else
    let names := fun file =>
      if (s.devices file).addr = dev.addr then nulldev else (s.devices file).name
    let devs := s.devs.filter fun d => d.addr ≠ dev.addr
    ({ s with devs := devs, devices := reassign names devs s.devices }, 0)

/-- `ENODEV`. -/
def enodev : ℤ := 19

/-- `stdio_deregister`. -/
def deregister (s : State) (name : List Byte) (force : Bool) : State × ℤ :=
  match getByName s name with
  | none => (s, -enodev)
  | some dev => deregisterDev s dev force

/-- A call, with what it is told by `calloc` or by the device. -/
inductive Call where
  | register (dev : Dev) (calloc : Bool)
  | assign (file : ℤ) (name : List Byte) (start : ℤ)
  | deregister (name : List Byte) (force : Bool)

def call (s : State) : Call → State × ℤ
  | .register dev calloc => register s dev calloc
  | .assign file name start => assign s file name start
  | .deregister name force => deregister s name force

/-- The calls as a machine. -/
def step (s : State) (c : Call) : Option State := some (call s c).1

/-! ### What is expected -/

/-- A device that is registered has a new name, and `nulldev` stays. -/
def Admissible (s : State) : Call → Prop
  | .register dev _ => ∀ d ∈ s.devs, d.name ≠ dev.name
  | .assign _ _ _ => True
  | .deregister name _ => name ≠ nulldev

/-- The devices have distinct names and addresses, and `nulldev` is one of them. -/
structure Listed (s : State) : Prop where
  names : (s.devs.map Dev.name).Nodup
  addrs : (s.devs.map Dev.addr).Nodup
  next : ∀ dev ∈ s.devs, dev.addr < s.next
  nulldev : ∃ dev ∈ s.devs, dev.name = nulldev
  devices : ∀ file, s.devices file ∈ s.devs

/-- The jump table has the functions of the devices that are assigned. -/
structure InSync (s : State) : Prop where
  getc : s.jt.getc = (s.devices .stdin).getc
  tstc : s.jt.tstc = (s.devices .stdin).tstc
  putc : s.jt.putc = (s.devices .stdout).putc
  puts : s.jt.puts = (s.devices .stdout).puts

/-- A call that assigns the file or takes its device away. -/
def Touches (s : State) (file : File) : Call → Prop
  | .register _ _ => False
  | .assign file' _ _ => fileOf file' = some file
  | .deregister name _ => (s.devices file).name = name

/-- What is expected of a state, for whatever call comes next. -/
structure Sound (s : State) : Prop where
  /-- What is assigned is in the list. -/
  devices : ∀ file, s.devices file ∈ s.devs
  /-- It is not taken away without force. -/
  refuses : ∀ file, deregister s (s.devices file).name false = (s, -1)
  /-- Other assignments are kept. -/
  keeps : ∀ file c, Admissible s c → ¬ Touches s file c →
    (call s c).1.devices file = s.devices file

/-! ### The devices by their names -/

variable {s s' : State} {dev : Dev} {name : List Byte} {file : File} {force : Bool} {c : Call}

theorem getByName_eq_some (h : getByName s name = some dev) :
  dev ∈ s.devs ∧ dev.name = name
  := ⟨List.mem_of_find?_eq_some h, by simpa using List.find?_some h⟩

/-- A name stands for one device. -/
theorem eq_of_name {devs : List Dev} (h : (devs.map Dev.name).Nodup) {d d' : Dev} (hd : d ∈ devs)
    (hd' : d' ∈ devs) (heq : d.name = d'.name) :
  d = d'
  := List.inj_on_of_nodup_map h hd hd' heq

theorem Listed.getByName (h : Listed s) (hdev : dev ∈ s.devs) :
  getByName s dev.name = some dev
  := by
  cases hfind : Stdio.getByName s dev.name with
  | none =>
    have hnone := List.find?_eq_none.mp hfind dev hdev
    simp at hnone
  | some d =>
    obtain ⟨hd, hname⟩ := getByName_eq_some hfind
    rw [eq_of_name h.names hd hdev hname]

theorem Listed.eq_of_addr (h : Listed s) {d d' : Dev} (hd : d ∈ s.devs) (hd' : d' ∈ s.devs)
    (heq : d.addr = d'.addr) :
  d = d'
  := List.inj_on_of_nodup_map h.addrs hd hd' heq

theorem reassign_of_not_mem {names : File → List Byte} {devs : List Dev} {devices : File → Dev}
    (h : ∀ d ∈ devs, d.name ≠ names file) :
  reassign names devs devices file = devices file
  := by
  induction devs generalizing devices with
  | nil => rfl
  | cons d devs ih =>
    obtain ⟨hd, hdevs⟩ := List.forall_mem_cons.mp h
    rw [reassign, List.foldl_cons]
    apply (ih hdevs).trans
    exact if_neg hd

/-- The device with the name that is looked for is found again. -/
theorem reassign_of_mem {names : File → List Byte} {devs : List Dev} {devices : File → Dev}
    (hdevs : (devs.map Dev.name).Nodup) (hdev : dev ∈ devs) (hname : dev.name = names file) :
  reassign names devs devices file = dev
  := by
  induction devs generalizing devices with
  | nil => cases hdev
  | cons d devs ih =>
    rw [List.map_cons, List.nodup_cons] at hdevs
    rw [reassign, List.foldl_cons]
    rcases List.mem_cons.mp hdev with rfl | hdev
    · apply (reassign_of_not_mem _).trans
      · exact if_pos hname
      · intro d hd heq
        rw [← hname] at heq
        exact hdevs.1 (heq ▸ List.mem_map_of_mem hd)
    · exact ih hdevs.2 hdev

theorem assigned_iff (s : State) (dev : Dev) :
  assigned s dev = true ↔ ∃ file, (s.devices file).addr = dev.addr
  := by
  simp only [assigned, List.any_cons, List.any_nil, Bool.or_false, Bool.or_eq_true,
    decide_eq_true_eq]
  constructor
  · rintro (h | h | h)
    · exact ⟨_, h⟩
    · exact ⟨_, h⟩
    · exact ⟨_, h⟩
  · rintro ⟨file, h⟩
    cases file with
    | stdin => exact .inl h
    | stdout => exact .inr (.inl h)
    | stderr => exact .inr (.inr h)

/-! ### Deregistration -/

theorem Listed.refuses (h : Listed s) (file : File) :
  deregister s (s.devices file).name false = (s, -1)
  := by
  rw [deregister, h.getByName (h.devices file)]
  dsimp only
  rw [deregisterDev, if_pos ⟨rfl, (assigned_iff s _).mpr ⟨file, rfl⟩⟩]

/-- What a deregistration does: nothing, or the device is gone and its files are `nulldev`. -/
theorem deregister_cases (h : Listed s) (hname : name ≠ nulldev) :
  (deregister s name force).1 = s
    ∨ ∃ dev ∈ s.devs, dev.name = name
      ∧ (deregister s name force).1.devs = s.devs.filter (fun d => d.addr ≠ dev.addr)
      ∧ (deregister s name force).1.jt = s.jt
      ∧ (deregister s name force).1.next = s.next
      ∧ (∀ file, (s.devices file).name ≠ name →
        (deregister s name force).1.devices file = s.devices file)
      ∧ ∀ file, (deregister s name force).1.devices file ∈ (deregister s name force).1.devs
  := by
  rw [deregister]
  cases hfind : getByName s name with
  | none => exact .inl rfl
  | some dev =>
    obtain ⟨hdev, rfl⟩ := getByName_eq_some hfind
    dsimp only
    rw [deregisterDev]
    split_ifs with hrefuse
    · exact .inl rfl
    · right
      have hnodup : ((s.devs.filter fun d => d.addr ≠ dev.addr).map Dev.name).Nodup :=
        h.names.sublist ((List.filter_sublist (l := s.devs)).map _)
      have hmem {d : Dev} (hd : d ∈ s.devs) (hne : d.name ≠ dev.name) :
          d ∈ s.devs.filter fun d => d.addr ≠ dev.addr := by
        rw [List.mem_filter, decide_eq_true_eq]
        refine ⟨hd, fun heq => hne ?_⟩
        rw [h.eq_of_addr hd hdev heq]
      have hkeep (file : File) (hne : (s.devices file).name ≠ dev.name) :
          reassign (fun file => if (s.devices file).addr = dev.addr then nulldev
              else (s.devices file).name) (s.devs.filter fun d => d.addr ≠ dev.addr) s.devices file
            = s.devices file := by
        apply reassign_of_mem hnodup (hmem (h.devices file) hne)
        rw [if_neg]
        intro heq
        exact hne (by rw [h.eq_of_addr (h.devices file) hdev heq])
      refine ⟨dev, hdev, rfl, rfl, rfl, rfl, hkeep, ?_⟩
      intro file
      by_cases heq : (s.devices file).name = dev.name
      · obtain ⟨d, hd, hnull⟩ := h.nulldev
        have hdfile : s.devices file = dev := eq_of_name h.names (h.devices file) hdev heq
        have hd' := hmem hd (by rw [hnull]; exact hname.symm)
        dsimp only
        rw [reassign_of_mem hnodup hd']
        · exact hd'
        · rw [if_pos (by rw [hdfile]), hnull]
      · dsimp only
        rw [hkeep file heq]
        exact hmem (h.devices file) heq

/-! ### The calls -/

theorem searchDevice_mem {flags : Word} (h : searchDevice s flags name = some dev) :
  dev ∈ s.devs
  := by
  rw [searchDevice] at h
  cases hfind : getByName s name with
  | none => simp [hfind] at h
  | some d =>
    simp only [hfind] at h
    split_ifs at h
    obtain rfl := Option.some.inj h
    exact (getByName_eq_some hfind).1

/-- What an assignment does: nothing, or the file has a device of the list. -/
theorem assign_cases (s : State) (n : ℤ) (name : List Byte) (start : ℤ) :
  (assign s n name start).1 = s
    ∨ ∃ file dev, fileOf n = some file ∧ dev ∈ s.devs
      ∧ (assign s n name start).1 = { s with
        devices := Function.update s.devices file dev
        jt := setJump s.jt dev file }
  := by
  rw [assign]
  cases hfile : fileOf n with
  | none => exact .inl rfl
  | some file =>
    dsimp only
    cases hdev : searchDevice s (flag file) name with
    | none => exact .inl rfl
    | some dev =>
      dsimp only
      rw [setfile]
      by_cases hfail : dev.hasStart ∧ start < 0
      · rw [if_pos hfail]
        exact .inl rfl
      · rw [if_neg hfail]
        exact .inr ⟨file, dev, rfl, searchDevice_mem hdev, rfl⟩

theorem Listed.register (h : Listed s) (calloc : Bool) (hnew : ∀ d ∈ s.devs, d.name ≠ dev.name) :
  Listed (register s dev calloc).1
  := by
  rw [Stdio.register]
  split_ifs
  · constructor
    case names =>
      rw [List.map_append, List.map_singleton]
      apply List.Nodup.append h.names (List.nodup_singleton _)
      rw [List.disjoint_singleton]
      intro hmem
      obtain ⟨d, hd, hname⟩ := List.mem_map.mp hmem
      exact hnew d hd hname
    case addrs =>
      rw [List.map_append, List.map_singleton]
      apply List.Nodup.append h.addrs (List.nodup_singleton _)
      rw [List.disjoint_singleton]
      intro hmem
      obtain ⟨d, hd, haddr⟩ := List.mem_map.mp hmem
      exact absurd haddr (h.next d hd).ne
    case next =>
      intro d hd
      rcases List.mem_append.mp hd with hd | hd
      · exact (h.next d hd).trans (Nat.lt_succ_self _)
      · rw [List.mem_singleton.mp hd]
        exact Nat.lt_succ_self _
    case nulldev =>
      obtain ⟨d, hd, hname⟩ := h.nulldev
      exact ⟨d, List.mem_append_left _ hd, hname⟩
    case devices => exact fun file => List.mem_append_left _ (h.devices file)
  · exact h

theorem Listed.assign (h : Listed s) (n : ℤ) (name : List Byte) (start : ℤ) :
  Listed (assign s n name start).1
  := by
  rcases assign_cases s n name start with heq | ⟨file, dev, -, hdev, heq⟩
  · rw [heq]
    exact h
  · rw [heq]
    refine ⟨h.names, h.addrs, h.next, h.nulldev, ?_⟩
    intro file'
    dsimp only
    rw [Function.update_apply]
    split_ifs
    · exact hdev
    · exact h.devices file'

theorem Listed.deregister (h : Listed s) (hname : name ≠ Stdio.nulldev) (force : Bool) :
  Listed (deregister s name force).1
  := by
  rcases @deregister_cases s name force h hname with
    heq | ⟨dev, hdev, rfl, hdevs, -, hnext, -, hdevices⟩
  · rw [heq]
    exact h
  · have hsub : (Stdio.deregister s dev.name force).1.devs.Sublist s.devs := by
      rw [hdevs]
      exact List.filter_sublist
    refine ⟨h.names.sublist (hsub.map _), h.addrs.sublist (hsub.map _), ?_, ?_, hdevices⟩
    · intro d hd
      rw [hnext]
      exact h.next d (hsub.subset hd)
    · obtain ⟨d, hd, hnull⟩ := h.nulldev
      refine ⟨d, ?_, hnull⟩
      rw [hdevs, List.mem_filter, decide_eq_true_eq]
      refine ⟨hd, fun heq => hname ?_⟩
      rw [← h.eq_of_addr hd hdev heq, hnull]

theorem Listed.call (h : Listed s) (hc : Admissible s c) :
  Listed (call s c).1
  := by
  cases c with
  | register dev calloc => exact h.register calloc hc
  | assign n name start => exact h.assign n name start
  | deregister name force => exact h.deregister hc force

/-- A call that does not touch a file keeps its device. -/
theorem Listed.keeps (h : Listed s) (hc : Admissible s c) (hnot : ¬ Touches s file c) :
  (Stdio.call s c).1.devices file = s.devices file
  := by
  cases c with
  | register dev calloc =>
    rw [Stdio.call, Stdio.register]
    split_ifs <;> rfl
  | assign n name start =>
    rcases assign_cases s n name start with heq | ⟨file', dev, hfile, -, heq⟩
    · rw [Stdio.call, heq]
    · have hne : file ≠ file' := by
        rintro rfl
        exact hnot hfile
      rw [Stdio.call, heq]
      exact Function.update_of_ne hne _ _
  | deregister name force =>
    rcases @deregister_cases s name force h hc with heq | ⟨dev, -, -, -, -, -, hkeep, -⟩
    · rw [Stdio.call, heq]
    · exact hkeep file hnot

theorem Listed.sound (h : Listed s) :
  Sound s
  := ⟨h.devices, h.refuses, fun _ _ => h.keeps⟩

/-! ### The jump table -/

/-- The device of `stdin` or `stdout` is not taken away by force. -/
def Regular (s : State) : Call → Prop
  | .deregister name true => name ≠ (s.devices .stdin).name ∧ name ≠ (s.devices .stdout).name
  | _ => True

theorem InSync.assign (h : InSync s) (n : ℤ) (name : List Byte) (start : ℤ) :
  InSync (assign s n name start).1
  := by
  rcases assign_cases s n name start with heq | ⟨file, dev, -, -, heq⟩
  · rw [heq]
    exact h
  · rw [heq]
    cases file with
    | stdin => exact ⟨rfl, rfl, h.putc, h.puts⟩
    | stdout => exact ⟨h.getc, h.tstc, rfl, rfl⟩
    | stderr => exact ⟨h.getc, h.tstc, h.putc, h.puts⟩

theorem InSync.call (h : InSync s) (hlisted : Listed s) (hc : Admissible s c) (hreg : Regular s c) :
  InSync (call s c).1
  := by
  cases c with
  | register dev calloc =>
    rw [Stdio.call, register]
    split_ifs <;> exact ⟨h.getc, h.tstc, h.putc, h.puts⟩
  | assign n name start => exact h.assign n name start
  | deregister name force =>
    by_cases hname : name = (s.devices .stdin).name ∨ name = (s.devices .stdout).name
    · -- it is refused
      cases force with
      | true => exact absurd hname (not_or.mpr hreg)
      | false =>
        have hsame : Stdio.deregister s name false = (s, -1) := by
          rcases hname with rfl | rfl
          · exact hlisted.refuses .stdin
          · exact hlisted.refuses .stdout
        rw [Stdio.call, hsame]
        exact h
    · rw [not_or] at hname
      have hstdin := @Listed.keeps s .stdin _ hlisted hc (Ne.symm hname.1)
      have hstdout := @Listed.keeps s .stdout _ hlisted hc (Ne.symm hname.2)
      have hjt : (Stdio.deregister s name force).1.jt = s.jt := by
        rcases @deregister_cases s name force hlisted hc with heq | ⟨_, -, -, -, hjt, -⟩
        · rw [heq]
        · exact hjt
      rw [Stdio.call] at hstdin hstdout
      constructor
      case getc => rw [Stdio.call, hjt, hstdin, h.getc]
      case tstc => rw [Stdio.call, hjt, hstdin, h.tstc]
      case putc => rw [Stdio.call, hjt, hstdout, h.putc]
      case puts => rw [Stdio.call, hjt, hstdout, h.puts]

/-! ### All sequences of calls -/

/-- What is expected after a sequence of calls. -/
def Consistent (s₀ : State) (calls : List Call) : Prop :=
  ∀ s ∈ Run.exec step s₀ calls, Sound s ∧ InSync s

/--
From a state in which everything is assigned, admissible calls keep the assignments right; the jump
table agrees with them as long as the devices of `stdin` and `stdout` are not taken away by force.
-/
theorem exec_consistent {s₀ : State} (hlisted : Listed s₀) (hsync : InSync s₀) {calls : List Call}
    (hadm : Run.Along step Admissible s₀ calls) :
  (∀ s ∈ Run.exec step s₀ calls, Sound s)
    ∧ (Run.Along step Regular s₀ calls → Consistent s₀ calls)
  := by
  have hrun {s : State} (hs : s ∈ Run.exec step s₀ calls) : Listed s := by
    apply Run.exec_invariant_of_some _ hlisted hadm hs
    intro s c s' h hc hstep
    obtain rfl := Option.some.inj hstep
    exact h.call hc
  refine ⟨fun s hs => (hrun hs).sound, fun hreg s hs => ⟨(hrun hs).sound, ?_⟩⟩
  have hboth := hadm.and hreg
  have hinv : Listed s ∧ InSync s := by
    apply Run.exec_invariant_of_some _ ⟨hlisted, hsync⟩ hboth hs
    rintro s c s' ⟨h, hsync⟩ ⟨hc, hreg⟩ hstep
    obtain rfl := Option.some.inj hstep
    exact ⟨h.call hc, hsync.call h hc hreg⟩
  exact hinv.2

/-- A serial line, the empty device and a keyboard that is `stdin`. -/
def sampleConsole : State where
  devs := [⟨0, ascii "serial", 3, false, 10, 11, 12, 13⟩, ⟨1, nulldev, 3, false, 20, 20, 22, 23⟩,
    ⟨2, ascii "usbkbd", 1, false, 30, 31, 0, 0⟩]
  devices
    | .stdin => ⟨2, ascii "usbkbd", 1, false, 30, 31, 0, 0⟩
    | _ => ⟨0, ascii "serial", 3, false, 10, 11, 12, 13⟩
  jt := ⟨30, 31, 12, 13⟩
  next := 3

theorem listed_sampleConsole :
  Listed sampleConsole
  := by
  refine ⟨by decide, by decide, by decide, by decide, ?_⟩
  intro file
  cases file <;> decide

theorem inSync_sampleConsole :
  InSync sampleConsole
  := ⟨rfl, rfl, rfl, rfl⟩

instance (s : State) : (c : Call) → Decidable (Admissible s c)
  | .register dev _ => inferInstanceAs (Decidable (∀ d ∈ s.devs, d.name ≠ dev.name))
  | .assign _ _ _ => .isTrue trivial
  | .deregister name _ => inferInstanceAs (Decidable (name ≠ nulldev))

instance (s : State) : (c : Call) → Decidable (Regular s c)
  | .deregister _ true => inferInstanceAs (Decidable (_ ∧ _))
  | .deregister _ false => .isTrue trivial
  | .register _ _ => .isTrue trivial
  | .assign _ _ _ => .isTrue trivial

/-- The keyboard is refused, left for the serial line, and then taken away. -/
theorem exec_consistent_keyboard :
  Consistent sampleConsole [.deregister (ascii "usbkbd") false, .assign 0 (ascii "serial") 0,
    .deregister (ascii "usbkbd") true]
  := by
  apply (exec_consistent listed_sampleConsole inSync_sampleConsole ?_).2
  · decide +kernel
  · decide +kernel

/-- A keyboard that is taken away while it is `stdin` stays in the jump table. -/
theorem not_consistent_force :
  Run.Along step Admissible sampleConsole [.deregister (ascii "usbkbd") true]
    ∧ ¬ Consistent sampleConsole [.deregister (ascii "usbkbd") true]
  := by
  refine ⟨by decide +kernel, fun h => ?_⟩
  have hsync := (h _ rfl).2.getc
  exact absurd hsync (by decide +kernel)

end Stdio
