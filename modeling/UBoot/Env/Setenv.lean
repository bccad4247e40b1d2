import UBoot.Crc32
import UBoot.Env.Edit

/-!
# `_do_setenv`

The command `setenv` of `common/cmd_nvedit.c` on the copy of the environment in RAM.
What the board configures is in `Config`, and what the function asks of the console
drivers is in `Devices`; the answer is a `Reply`, which is the return code together with
the message the function prints.
-/

namespace Env

open Memory

/-- The environment in RAM, `env_t`. -/
structure Image where
  crc : Word
  data : ℕ → Byte

/-- What the board configuration fixes. -/
structure Config where
  /-- `ENV_SIZE`, the size of the data area. -/
  envSize : ℕ
  /-- `ENV_HEADER_SIZE`, the size of what precedes it. -/
  envHeaderSize : ℕ
  /-- `CONFIG_ENV_OVERWRITE`. -/
  envOverwrite : Bool
  /-- `CONFIG_HAS_UID`. -/
  hasUid : Bool
  /-- `CONFIG_ETHADDR`, with `CONFIG_OVERWRITE_ETHADDR_ONCE`. -/
  ethaddrOnce : Option (List Byte)
  /-- `CONFIG_CONSOLE_MUX`. -/
  consoleMux : Bool
  /-- `CONFIG_SERIAL_MULTI`. -/
  serialMulti : Bool
  /-- `CONFIG_SYS_BAUDRATE_TABLE`. -/
  baudrateTable : List ℕ
  /-- `CONFIG_CMD_NET`. -/
  cmdNet : Bool

/-- `CONFIG_ENV_SIZE`. -/
def Config.configEnvSize (c : Config) : ℕ := c.envSize + c.envHeaderSize

/-- The configuration of the Sam460ex, `include/configs/Sam460ex.h`. -/
def sam460ex : Config where
  envSize := 0x400 - 4
  envHeaderSize := 4
  envOverwrite := true
  hasUid := false
  ethaddrOnce := none
  consoleMux := false
  serialMulti := true
  baudrateTable := [300, 600, 1200, 2400, 4800, 9600, 19200, 38400, 57600, 115200, 230400]
  cmdNet := true

/-- The console drivers, and the string at address 0 that a missing argument of
`baudrate` is read from. -/
structure Devices where
  iomuxDoenv : ℕ → List Byte → ℤ
  consoleAssign : ℕ → List Byte → ℤ
  serialAssign : List Byte → ℤ
  atNull : List Byte

/-- The variables of the firmware that `_do_setenv` reads and writes. -/
structure Globals where
  /-- Whether `env_get_addr(0)` is not `NULL`. -/
  inRam : Bool
  env : Image
  envId : ℕ
  baudrate : ℕ
  biIpAddr : ℕ
  loadAddr : ℕ
  bootFile : List Byte

/-- The variables with the data area `d`. -/
def Globals.withData (g : Globals) (d : ℕ → Byte) : Globals :=
  { g with env := { g.env with data := d } }

@[simp]
theorem Globals.withData_data (g : Globals) (d : ℕ → Byte) :
  (g.withData d).env.data = d
  := rfl

@[simp]
theorem Globals.withData_crc (g : Globals) (d : ℕ → Byte) :
  (g.withData d).env.crc = g.env.crc
  := rfl

@[simp]
theorem Globals.withData_inRam (g : Globals) (d : ℕ → Byte) :
  (g.withData d).inRam = g.inRam
  := rfl

/-- How a call of `_do_setenv` ends. -/
inductive Reply where
  | ok
  | noRamCopy
  | illegalName
  | cannotDelete
  | assignFailed (rc : ℤ)
  | cannotOverwrite
  | badBaudrate (baudrate : ℕ)
  | overflow
  deriving DecidableEq

/-- The return code. -/
def Reply.rc : Reply → ℤ
  | ok => 0
  | assignFailed rc => rc
  | _ => 1

/-- The message printed for the variable `name`. -/
def Reply.message (name : String) : Reply → String
  | ok | noRamCopy | assignFailed _ => ""
  | illegalName => "## Error: illegal character '=' in variable name \"" ++ name ++ "\"\n"
  | cannotDelete => "Can't delete \"" ++ name ++ "\"\n"
  | cannotOverwrite => "Can't overwrite \"" ++ name ++ "\"\n"
  | badBaudrate baudrate => "## Baudrate " ++ toString baudrate ++ " bps not supported\n"
  | overflow => "## Error: environment overflow, \"" ++ name ++ "\" deleted\n"

/-! ### Numbers and file names -/

/-- The value of a hexadecimal digit. -/
def xdigit (c : Byte) : Option ℕ :=
  if 48 ≤ c.toNat ∧ c.toNat ≤ 57 then some (c.toNat - 48)
  else if 97 ≤ c.toNat ∧ c.toNat ≤ 102 then some (c.toNat - 87)
  else if 65 ≤ c.toNat ∧ c.toNat ≤ 70 then some (c.toNat - 55)
  else none

/-- The digits of `simple_strtoul`, and the string behind them. -/
def strtoulDigits (base : ℕ) : ℕ → List Byte → ℕ × List Byte
  | result, [] => (result, [])
  | result, c :: cp =>
    match xdigit c with
    | some v =>
      if v < base then strtoulDigits base ((result * base + v) % 2 ^ 32) cp
      else (result, c :: cp)
    | none => (result, c :: cp)

/-- `simple_strtoul` with a base other than 0: a leading `0x` makes the base 16. -/
def simpleStrtoul (cp : List Byte) (base : ℕ) : ℕ × List Byte :=
  match cp with
  | 48 :: 120 :: c :: rest =>
    if (xdigit c).isSome then strtoulDigits 16 0 (c :: rest)
    else strtoulDigits base 0 (120 :: c :: rest)
  | 48 :: rest => strtoulDigits base 0 rest
  | cp => strtoulDigits base 0 cp

/-- The four octets of an IP address, each up to the character that ends its digits. -/
def ipAddr : ℕ → ℕ → List Byte → ℕ
  | 0, addr, _ => addr
  | n + 1, addr, s =>
    let r := simpleStrtoul s 10
    ipAddr n ((addr * 256 + r.1 % 256) % 2 ^ 32) r.2.tail

/-- `copy_filename` into a buffer of `size` bytes. -/
def copyFilename (src : List Byte) (size : ℕ) : List Byte :=
  match src with
  | 34 :: src => (src.takeWhile (· ≠ 34)).take (size - 2)
  | src => (src.takeWhile (· ≠ 34)).take (size - 1)

/-! ### The search -/

/-- The entry the search loop stops at: the index of its value, its start and the place
of its NUL. -/
structure Found where
  oldval : ℕ
  env : ℕ
  nxt : ℕ

/-- The search for a variable from the entry at `env` on, in at most `n` rounds. -/
def findVar (d : ℕ → Byte) (size : ℕ) (name : List Byte) : ℕ → ℕ → Option (Option Found)
  | 0, _ => none
  | n + 1, env =>
    if d env = 0 then some none
    else do
      let nxt ← strEnd d size env
      match ← envmatch d name env with
      | some oldval => some (some ⟨oldval, env, nxt⟩)
      | none => findVar d size name n (nxt + 1)

/-! ### The checks before the change -/

/-- The console file a name stands for. -/
def consoleOf (name : List Byte) : Option ℕ :=
  if name = ascii "stdin" then some 0
  else if name = ascii "stdout" then some 1
  else if name = ascii "stderr" then some 2
  else none

/-- The redirection of a console, and how the call ends when it is refused. -/
def consoleCheck (c : Config) (x : Devices) (name : List Byte) (args : List (List Byte)) :
    Option Reply :=
  match consoleOf name with
  | none => none
  | some console =>
    match args with
    | [] => some .cannotDelete
    | arg :: _ =>
      if c.consoleMux then
        if x.iomuxDoenv console arg ≠ 0 then some (.assignFailed (x.iomuxDoenv console arg))
        else none
      else if x.consoleAssign console arg < 0 then some (.assignFailed 1)
      else if c.serialMulti ∧ x.serialAssign arg < 0 then some (.assignFailed 1)
      else none

/-- Whether the existing definition may not be overwritten. -/
def protectedVar (c : Config) (flag : Word) (d : ℕ → Byte) (name : List Byte) (oldval : ℕ) :
    Bool :=
  !c.envOverwrite &&
    ((name = ascii "serial#" && !(c.hasUid && flag = 0xdeaf4add)) ||
      (name = ascii "ethaddr" &&
        match c.ethaddrOnce with
        | some ethaddr => strAt d c.envSize oldval ≠ some ethaddr
        | none => true))

/-- The baud rate that a new definition of `baudrate` switches to. -/
def newBaudrate (x : Devices) (name : List Byte) (args : List (List Byte)) : Option ℕ :=
  if name = ascii "baudrate" then some (simpleStrtoul (args.headD x.atNull) 10).1 else none

/-! ### The change -/

/-- The deletion of the entry at `env`, whose NUL is at `nxt`. -/
def deleteVar (d : ℕ → Byte) (size env nxt : ℕ) : Option (ℕ → Byte) := do
  let nxt := nxt + 1
  let (d, env) ←
    if d nxt = 0 then
      if env > 0 then some (d, env - 1) else some (Function.update d env 0, env)
    else shiftDown size d env nxt
  some (Function.update d (env + 1) 0)

/-- `env_crc_update`. -/
def envCrcUpdate (c : Config) (g : Globals) : Globals :=
  { g with env := { g.env with crc := Crc32.crc32 0 (read g.env.data 0 c.envSize) } }

/-- The variables of the firmware that follow a variable of the environment. -/
def updateVars (c : Config) (g : Globals) (name : List Byte) (args : List (List Byte)) : Globals :=
  if name = ascii "ethaddr" then g
  else if name = ascii "ipaddr" then { g with biIpAddr := ipAddr 4 0 (args.headD []) }
  else if name = ascii "loadaddr" then { g with loadAddr := (simpleStrtoul (args.headD []) 16).1 }
  else if c.cmdNet ∧ name = ascii "bootfile" then
    { g with bootFile := copyFilename (args.headD []) 128 }
  else g

/-- The part of `_do_setenv` after the deletion. -/
def defineVar (c : Config) (g : Globals) (name : List Byte) (args : List (List Byte)) :
    Option (Reply × Globals) :=
  if args = [] then some (.ok, envCrcUpdate c g)
  else do
    let env ← endScan g.env.data c.envSize 0
    let env := if env > 0 then env + 1 else env
    if newLen name args > c.envSize - env then some (.overflow, g)
    else
      let g := g.withData (appendVar g.env.data env name args)
      some (.ok, updateVars c (envCrcUpdate c g) name args)

/-- The part of `_do_setenv` after the search. -/
def changeVar (c : Config) (x : Devices) (flag : Word) (g : Globals) (name : List Byte)
    (args : List (List Byte)) (found : Option Found) : Option (Reply × Globals) :=
  match consoleCheck c x name args with
  | some r => some (r, g)
  | none =>
    match found with
    | none => defineVar c g name args
    | some f =>
      if protectedVar c flag g.env.data name f.oldval then some (.cannotOverwrite, g)
      else
        match newBaudrate x name args with
        | some b =>
          if b ∉ c.baudrateTable then some (.badBaudrate b, g)
          else do
            let d ← deleteVar g.env.data c.envSize f.env f.nxt
            defineVar c ({ g with baudrate := b }.withData d) name args
        | none => do
          let d ← deleteVar g.env.data c.envSize f.env f.nxt
          defineVar c (g.withData d) name args

/-- `_do_setenv`: define the variable `name` with the arguments `args`, or delete it when
there are none. -/
def doSetenv (c : Config) (x : Devices) (flag : Word) (g : Globals) (name : List Byte)
    (args : List (List Byte)) : Option (Reply × Globals) :=
  if ¬ g.inRam then some (.noRamCopy, g)
  else if equals ∈ name then some (.illegalName, g)
  else do
    let g := { g with envId := g.envId + 1 }
    let found ← findVar g.env.data c.envSize name c.envSize 0
    changeVar c x flag g name args found

/-- `setenv`: an empty value deletes the variable. -/
def setenv (c : Config) (x : Devices) (g : Globals) (varname varvalue : List Byte) :
    Option (Reply × Globals) :=
  doSetenv c x 0 g varname (if varvalue = [] then [] else [varvalue])

end Env
