import UBoot.Cli.ParseLine

/-!
# Running a command line

`run_command` of `common/main.c` splits a line at its separators, expands the macros of each
command, splits it into words, looks the first one up in the command table and calls the
handler of the entry.

What the handlers do, the environment they read and change, and the console are a parameter:
a handler is a function of the state of the world.  It may also change `argv`.
-/

namespace Cli

/-! ### Macros -/

/-- `'`. -/
def quote : Byte := 39

/-- The escape character. -/
def backslash : Byte := 92

/-- `;`. -/
def semicolon : Byte := 59

/-- `$`. -/
def dollar : Byte := 36

/-- `(` and `{`. -/
def isOpening (c : Byte) : Bool := c = 40 || c = 123

/-- `)` and `}`. -/
def isClosing (c : Byte) : Bool := c = 41 || c = 125

/-- What `process_macros` waits for: a `$`, the bracket behind it, the closing bracket, or
the closing quote. -/
inductive Waiting where
  | dollar
  | opening
  | closing
  | quote
deriving DecidableEq

/-- The variables of `process_macros`; `varname` is what it has read since `varname_start`. -/
structure Macros where
  state : Waiting
  prev : Byte
  varname : List Byte
  output : List Byte

variable (getenv : List Byte → Option (List Byte)) (cbsize : ℕ)

/-- The `switch` of `process_macros` for the character `c`, read from the input as `raw`. -/
def Macros.next (m : Macros) (c : Byte) (raw : List Byte) : Macros :=
  match m.state with
  | .dollar =>
    if c = quote ∧ m.prev ≠ backslash then { m with state := .quote, prev := c }
    else if c = Cli.dollar ∧ m.prev ≠ backslash then { m with state := .opening, prev := c }
    else { m with output := m.output ++ [c], prev := c }
  | .opening =>
    if isOpening c then { m with state := .closing, varname := [], prev := c }
    else
      -- the second character only if there is room for it
      { m with state := .dollar, output := (m.output ++ [Cli.dollar, c]).take cbsize, prev := c }
  | .closing =>
    if isClosing c then
      let value := cstr ((getenv (m.varname ++ raw.dropLast)).getD [])
      { m with state := .dollar, output := (m.output ++ value).take cbsize, prev := c }
    else { m with varname := m.varname ++ raw, prev := c }
  | .quote =>
    if c = quote ∧ m.prev ≠ backslash then { m with state := .dollar, prev := c }
    else { m with output := m.output ++ [c], prev := c }

/-- The loop of `process_macros`, until the input is read or the output is full. -/
def macroLoop : List Byte → Macros → List Byte
  | [], m => m.output
  | [c], m =>
    if cbsize ≤ m.output.length then m.output
    else if m.state ≠ .quote ∧ c = backslash ∧ m.prev ≠ backslash then m.output
    else (m.next getenv cbsize c [c]).output
  | c :: d :: input, m =>
    if cbsize ≤ m.output.length then m.output
    else if m.state ≠ .quote ∧ c = backslash ∧ m.prev ≠ backslash then
      -- one level of escape characters is removed
      macroLoop input ({ m with prev := c }.next getenv cbsize d [c, d])
    else macroLoop (d :: input) (m.next getenv cbsize c [c])

/-- `process_macros`: the string it leaves in the output buffer. -/
def processMacros (input : List Byte) : List Byte :=
  let output := macroLoop getenv cbsize input ⟨.dollar, 0, [], []⟩
  if output.length < cbsize then output else output.dropLast

/-! ### Commands -/

/-- The commands of a line.  `prev` is the byte in front of it, and `token` what was read of
the command so far. -/
def separate (prev : Byte) (inquotes : Bool) (token : List Byte) : List Byte → List (List Byte)
  | [] => if token = [] then [] else [token]
  | c :: line =>
    let inquotes := if c = quote ∧ prev ≠ backslash then !inquotes else inquotes
    if inquotes = false ∧ c = semicolon ∧ token ≠ [] ∧ prev ≠ backslash then
      -- the separator is overwritten by a NUL
      token :: separate 0 false [] line
    else separate c inquotes (token ++ [c]) line

/-- What a handler leaves: the world, its return value, and the array `argv`. -/
structure Reply (ω : Type*) where
  world : ω
  ret : ℤ
  argv : Argv

/-- An entry of the command table; `isBootd` says that its handler is `do_bootd`. -/
structure Cmd (ω : Type*) where
  name : List Byte
  maxargs : ℕ
  repeatable : ℕ
  isBootd : Bool
  cmd : ω → ℕ → Parsed → Reply ω

/-- The configuration, the command table, and what the code reads of the world. -/
structure Shell (ω : Type*) where
  cbsize : ℕ
  maxargs : ℕ
  maxargs_pos : 0 < maxargs
  table : List (Cmd ω)
  getenv : ω → List Byte → Option (List Byte)
  clearCtrlc : ω → ω
  hadCtrlc : ω → Bool

/-- The loop of `find_cmd_tbl`: a full match is returned at once; otherwise `found` are the
entries that begin with the name. -/
def findLoop {ω : Type*} (name : List Byte) : List (Cmd ω) → List (Cmd ω) → Option (Cmd ω)
  | found, [] => if found.length = 1 then found.head? else none
  | found, cmdtp :: table =>
    if name.isPrefixOf cmdtp.name then
      if name.length = cmdtp.name.length then some cmdtp
      else findLoop name (found ++ [cmdtp]) table
    else findLoop name found table

namespace Shell

variable {ω : Type*} (sh : Shell ω)

/-- `find_cmd`: only the part of the name before the first dot counts. -/
def findCmd (cmd : List Byte) : Option (Cmd ω) :=
  findLoop (cmd.takeWhile (· ≠ 46)) [] sh.table

/-- `CMD_FLAG_BOOTD`. -/
def flagBootd : ℕ := 2

/-- `bootd` was started by `bootd`. -/
def recursive (cmdtp : Cmd ω) (flag : ℕ) : Bool := cmdtp.isBootd && flag &&& flagBootd ≠ 0

/-- The variables of `run_command`. -/
structure State (ω : Type*) where
  world : ω
  argv : Argv
  flag : ℕ
  repeatable : ℕ
  rc : ℤ

/-- A call of a handler. -/
structure Call (ω : Type*) where
  cmdtp : Cmd ω
  parsed : Parsed

/-- One round of the loop of `run_command`: the command with its macros expanded, the state
it finds, and the call it makes. -/
structure Round (ω : Type*) where
  line : List Byte
  before : State ω
  call : Option (Call ω)

/-- The command with its macros expanded. -/
def expand (s : State ω) (token : List Byte) : List Byte :=
  cstr (processMacros (sh.getenv s.world) sh.cbsize token)

/-- One round: what it was, the state it leaves, and whether the user stopped it. -/
def round (s : State ω) (token : List Byte) : Round ω × State ω × Bool :=
  let line := sh.expand s token
  let parsed := parseLine sh.maxargs line s.argv
  let skipped := (⟨line, s, none⟩, { s with argv := parsed.argv, rc := -1 }, false)
  if parsed.nargs = 0 then skipped
  else
    match sh.findCmd ((parsed.arg 0).getD []) with
    | none => skipped
    | some cmdtp =>
      if cmdtp.maxargs < parsed.nargs then skipped
      else if recursive cmdtp s.flag then skipped
      else
        let flag := if cmdtp.isBootd then s.flag ||| flagBootd else s.flag
        let reply := cmdtp.cmd s.world flag parsed
        (⟨line, s, some ⟨cmdtp, parsed⟩⟩,
          { world := reply.world
            argv := reply.argv
            flag := flag
            repeatable := s.repeatable &&& cmdtp.repeatable
            rc := if reply.ret ≠ 0 then -1 else s.rc },
          sh.hadCtrlc reply.world)

/-- The value that `run_command` returns, and the rounds it made. -/
structure Outcome (ω : Type*) where
  ret : ℤ
  rounds : List (Round ω)

/-- The loop of `run_command` over the commands of the line. -/
def runLoop : List (List Byte) → State ω → Outcome ω
  | [], s => ⟨if s.rc ≠ 0 then s.rc else s.repeatable, []⟩
  | token :: tokens, s =>
    let (r, s') := sh.round s token
    if s'.2 then ⟨-1, [r]⟩
    else
      let out := runLoop tokens s'.1
      ⟨out.ret, r :: out.rounds⟩

/-- `run_command`.  The array `argv` is on the stack, with whatever was there; `front` is the
byte in front of the copy of the command. -/
def runCommand (world : ω) (argv : Argv) (front : Byte) (cmd : Option (List Byte)) (flag : ℕ) :
    Outcome ω :=
  let world := sh.clearCtrlc world
  match cmd.map cstr with
  | none => ⟨-1, []⟩
  | some cmd =>
    if cmd = [] then ⟨-1, []⟩
    else if sh.cbsize ≤ cmd.length then ⟨-1, []⟩
    else sh.runLoop (separate front false [] cmd) ⟨world, argv, flag, 1, 0⟩

/-! ### Complete argument lists -/

/-- The handler receives all words of the command, a null pointer behind them, and not more
of them than its entry allows. -/
structure Complete (line : List Byte) (call : Call ω) : Prop where
  argc : call.parsed.nargs = (words line).length
  argv : ∀ j (h : j < (words line).length), call.parsed.arg j = some (words line)[j]
  null : call.parsed.argv call.parsed.nargs = none
  le : call.parsed.nargs ≤ call.cmdtp.maxargs

/-- Handlers are called with complete argument lists only, and a command of too many words
is not run and makes `run_command` return `-1`. -/
def Faithful (out : Outcome ω) : Prop :=
  ∀ r ∈ out.rounds, (∀ call ∈ r.call, Complete r.line call)
    ∧ (sh.maxargs < (words r.line).length → r.call = none ∧ out.ret = -1)

/-- The command is in the table, with room for `CONFIG_SYS_MAXARGS` words. -/
def Takes (flag : ℕ) (name : List Byte) : Prop :=
  ∃ cmdtp, sh.findCmd name = some cmdtp ∧ sh.maxargs ≤ cmdtp.maxargs ∧ recursive cmdtp flag = false

/-- A command with a blank behind its first `CONFIG_SYS_MAXARGS` words is not taken, or these
are all its words and the null pointer behind them is there already. -/
def Regular (r : Round ω) : Prop :=
  Overflows sh.maxargs r.line →
    (∀ name ∈ (words r.line).head?, ¬ sh.Takes r.before.flag name)
      ∨ (words r.line).length = sh.maxargs ∧ r.before.argv sh.maxargs = none

variable {sh} {s : State ω} {token : List Byte} {cmdtp : Cmd ω}

theorem zero_notMem_expand :
  (0 : Byte) ∉ sh.expand s token
  := by
  intro h
  simpa using List.mem_takeWhile_imp h

/-- What a round parses. -/
def parsed (sh : Shell ω) (s : State ω) (token : List Byte) : Parsed :=
  parseLine sh.maxargs (sh.expand s token) s.argv

theorem parsed_spec :
  ParseSpec sh.maxargs [] (sh.expand s token) 0 s.argv (sh.parsed s token)
  := parseLine_spec sh.maxargs zero_notMem_expand s.argv

/-- The round comes to call the handler of the entry. -/
structure Runs (sh : Shell ω) (s : State ω) (token : List Byte) (cmdtp : Cmd ω) : Prop where
  nonempty : (sh.parsed s token).nargs ≠ 0
  found : sh.findCmd (((sh.parsed s token).arg 0).getD []) = some cmdtp
  le : (sh.parsed s token).nargs ≤ cmdtp.maxargs
  not_recursive : recursive cmdtp s.flag = false

theorem round_of_runs (h : sh.Runs s token cmdtp) :
  (sh.round s token).1 = ⟨sh.expand s token, s, some ⟨cmdtp, sh.parsed s token⟩⟩
    ∧ (s.rc = -1 → (sh.round s token).2.1.rc = -1)
  := by
  obtain ⟨h0, hf, hle, hrec⟩ := h
  simp only [parsed] at h0 hf hle
  simp only [round, if_neg h0, hf, if_neg (Nat.not_lt.mpr hle), hrec]
  refine ⟨rfl, ?_⟩
  intro hrc
  simp [hrc]

theorem round_of_not_runs (h : ∀ cmdtp, ¬ sh.Runs s token cmdtp) :
  sh.round s token
    = (⟨sh.expand s token, s, none⟩, { s with argv := (sh.parsed s token).argv, rc := -1 }, false)
  := by
  by_cases h0 : (sh.parsed s token).nargs = 0
  · simp only [parsed] at h0
    simp only [round, if_pos h0]
    rfl
  · cases hf : sh.findCmd (((sh.parsed s token).arg 0).getD []) with
    | none =>
      simp only [parsed] at h0 hf
      simp only [round, if_neg h0, hf]
      rfl
    | some cmdtp =>
      by_cases hle : (sh.parsed s token).nargs ≤ cmdtp.maxargs
      · have hrec : recursive cmdtp s.flag = true := by
          by_contra hrec
          apply h cmdtp ⟨h0, hf, hle, by simpa using hrec⟩
        simp only [parsed] at h0 hf hle
        simp only [round, if_neg h0, hf, if_neg (Nat.not_lt.mpr hle), hrec]
        rfl
      · simp only [parsed] at h0 hf hle
        simp only [round, if_neg h0, hf, if_pos (Nat.lt_of_not_le hle)]
        rfl

theorem round_line :
  (sh.round s token).1.line = sh.expand s token ∧ (sh.round s token).1.before = s
  := by
  by_cases h : ∃ cmdtp, sh.Runs s token cmdtp
  · obtain ⟨cmdtp, h⟩ := h
    rw [(round_of_runs h).1]
    exact ⟨rfl, rfl⟩
  · rw [round_of_not_runs fun cmdtp hc => h ⟨cmdtp, hc⟩]
    exact ⟨rfl, rfl⟩

/-- The first word of the command is its name. -/
theorem arg_zero (h : words (sh.expand s token) ≠ []) :
  ((sh.parsed s token).arg 0).getD [] ∈ (words (sh.expand s token)).head?
  := by
  have hlen : 0 < (words (sh.expand s token)).length := List.length_pos_iff.mpr h
  have harg := parsed_spec.arg 0 hlen sh.maxargs_pos
  rw [zero_add] at harg
  rw [harg, Option.getD_some, List.head?_eq_getElem?, List.getElem?_eq_getElem hlen]
  rfl

/-- An overflowing command is called with as many words as there is room for. -/
theorem parsed_of_overflows (h : Overflows sh.maxargs (sh.expand s token)) :
  words (sh.expand s token) ≠ [] ∧ (sh.parsed s token).nargs = sh.maxargs
    ∧ (sh.parsed s token).argv sh.maxargs = s.argv sh.maxargs
  := by
  have hpos := sh.maxargs_pos
  have hfull := parsed_spec.full h
  rw [zero_add] at hfull
  refine ⟨?_, hfull⟩
  intro hnil
  rcases h with h | ⟨h, -⟩
  · rw [hnil, List.length_nil] at h
    omega
  · rw [hnil, List.length_nil] at h
    omega

/-- The call of a round whose command does not overflow. -/
theorem complete_of_not_overflows (h : sh.Runs s token cmdtp)
    (hover : ¬ Overflows sh.maxargs (sh.expand s token)) :
  Complete (sh.expand s token) ⟨cmdtp, sh.parsed s token⟩
  := by
  obtain ⟨hnargs, hnull⟩ := parsed_spec.fits hover
  rw [zero_add] at hnargs hnull
  refine ⟨hnargs, ?_, ?_, h.le⟩
  · intro j hj
    have hle : (words (sh.expand s token)).length ≤ sh.maxargs :=
      Nat.le_of_not_lt fun hlt => hover (.inl hlt)
    have harg := parsed_spec.arg j hj (by omega)
    rwa [zero_add] at harg
  · show (sh.parsed s token).argv (sh.parsed s token).nargs = none
    rw [hnargs, hnull]

/-- The call of a round whose command overflows. -/
theorem complete_iff_of_overflows (h : sh.Runs s token cmdtp)
    (hover : Overflows sh.maxargs (sh.expand s token)) :
  Complete (sh.expand s token) ⟨cmdtp, sh.parsed s token⟩
    ↔ (words (sh.expand s token)).length = sh.maxargs ∧ s.argv sh.maxargs = none
  := by
  obtain ⟨-, hnargs, hargv⟩ := parsed_of_overflows hover
  constructor
  · intro hc
    have hlen := hc.argc
    have hnull := hc.null
    simp only [hnargs, hargv] at hlen hnull
    exact ⟨hlen.symm, hnull⟩
  · intro ⟨hlen, hnull⟩
    refine ⟨hnargs.trans hlen.symm, ?_, ?_, h.le⟩
    · intro j hj
      have harg := parsed_spec.arg j hj (by omega)
      rwa [zero_add] at harg
    · show (sh.parsed s token).argv (sh.parsed s token).nargs = none
      rw [hnargs, hargv, hnull]

/-- The entry that is called for an overflowing command takes it. -/
theorem takes_of_runs (h : sh.Runs s token cmdtp)
    (hover : Overflows sh.maxargs (sh.expand s token)) :
  sh.Takes s.flag (((sh.parsed s token).arg 0).getD [])
  := by
  obtain ⟨-, hnargs, -⟩ := parsed_of_overflows hover
  refine ⟨cmdtp, h.found, ?_, h.not_recursive⟩
  rw [← hnargs]
  apply h.le

/-- The argument lists of a round are complete exactly when it is regular. -/
theorem round_iff :
  ((∀ call ∈ (sh.round s token).1.call, Complete (sh.expand s token) call)
      ∧ (sh.maxargs < (words (sh.expand s token)).length → (sh.round s token).1.call = none))
    ↔ sh.Regular (sh.round s token).1
  := by
  rw [Regular, round_line.1, round_line.2]
  by_cases hruns : ∃ cmdtp, sh.Runs s token cmdtp
  · obtain ⟨cmdtp, hruns⟩ := hruns
    rw [(round_of_runs hruns).1]
    simp only [Option.mem_some_iff, forall_eq', reduceCtorEq, imp_false, not_lt]
    by_cases hover : Overflows sh.maxargs (sh.expand s token)
    · rw [complete_iff_of_overflows hruns hover]
      have hname := arg_zero (parsed_of_overflows hover).1
      have htakes := takes_of_runs hruns hover
      constructor
      · intro ⟨h, _⟩ _
        apply Or.inr h
      · intro h
        rcases h hover with h | h
        · apply absurd htakes (h _ hname)
        · exact ⟨h, h.1.le⟩
    · have hle : (words (sh.expand s token)).length ≤ sh.maxargs :=
        Nat.le_of_not_lt fun hlt => hover (.inl hlt)
      constructor
      · intro _ h
        apply absurd h hover
      · intro _
        exact ⟨complete_of_not_overflows hruns hover, hle⟩
  · rw [round_of_not_runs fun cmdtp hc => hruns ⟨cmdtp, hc⟩]
    constructor
    · intro _ hover
      left
      intro name hname ⟨cmdtp, hf, hle, hrec⟩
      obtain ⟨hne, hnargs, -⟩ := parsed_of_overflows hover
      have hpos := sh.maxargs_pos
      apply hruns
      refine ⟨cmdtp, by omega, ?_, by omega, hrec⟩
      rw [Option.mem_unique (arg_zero hne) hname, hf]
    · intro _
      simp

/-! ### Whole command lines -/

theorem round_rc (h : s.rc = -1) :
  (sh.round s token).2.1.rc = -1
  := by
  by_cases hruns : ∃ cmdtp, sh.Runs s token cmdtp
  · obtain ⟨cmdtp, hruns⟩ := hruns
    apply (round_of_runs hruns).2 h
  · rw [round_of_not_runs fun cmdtp hc => hruns ⟨cmdtp, hc⟩]

/-- A round without a call. -/
theorem round_of_call_eq_none (h : (sh.round s token).1.call = none) :
  (sh.round s token).2.1.rc = -1 ∧ (sh.round s token).2.2 = false
  := by
  by_cases hruns : ∃ cmdtp, sh.Runs s token cmdtp
  · obtain ⟨cmdtp, hruns⟩ := hruns
    rw [(round_of_runs hruns).1] at h
    cases h
  · rw [round_of_not_runs fun cmdtp hc => hruns ⟨cmdtp, hc⟩]
    exact ⟨rfl, rfl⟩

theorem runLoop_ret_of_rc (tokens : List (List Byte)) (h : s.rc = -1) :
  (sh.runLoop tokens s).ret = -1
  := by
  induction tokens generalizing s with
  | nil => simp [runLoop, h]
  | cons token tokens ih =>
    simp only [runLoop]
    split
    · rfl
    · apply ih (round_rc h)

/-- The rounds of a line, and what one without a call does to the value returned. -/
theorem mem_rounds {tokens : List (List Byte)} {r : Round ω}
    (h : r ∈ (sh.runLoop tokens s).rounds) :
  (∃ s' token, r = (sh.round s' token).1) ∧ (r.call = none → (sh.runLoop tokens s).ret = -1)
  := by
  induction tokens generalizing s with
  | nil => simp [runLoop] at h
  | cons token tokens ih =>
    simp only [runLoop] at h ⊢
    split at h
    case isTrue hstop =>
      obtain rfl := List.mem_singleton.mp h
      rw [if_pos hstop]
      exact ⟨⟨s, token, rfl⟩, fun _ => rfl⟩
    case isFalse hstop =>
      rw [if_neg hstop]
      rcases List.mem_cons.mp h with rfl | h
      · refine ⟨⟨s, token, rfl⟩, ?_⟩
        intro hcall
        apply runLoop_ret_of_rc _ (round_of_call_eq_none hcall).1
      · apply ih h

theorem runLoop_faithful_iff (tokens : List (List Byte)) (s : State ω) :
  sh.Faithful (sh.runLoop tokens s) ↔ ∀ r ∈ (sh.runLoop tokens s).rounds, sh.Regular r
  := by
  apply forall₂_congr
  intro r hr
  obtain ⟨⟨s', token, rfl⟩, hret⟩ := mem_rounds hr
  rw [← round_iff, round_line.1]
  constructor
  · intro ⟨hcomplete, hmany⟩
    exact ⟨hcomplete, fun hlt => (hmany hlt).1⟩
  · intro ⟨hcomplete, hmany⟩
    exact ⟨hcomplete, fun hlt => ⟨hmany hlt, hret (hmany hlt)⟩⟩

/-- **Handlers get complete argument lists exactly when every round is regular.** -/
theorem runCommand_faithful_iff (sh : Shell ω) (world : ω) (argv : Argv) (front : Byte)
    (cmd : Option (List Byte)) (flag : ℕ) :
  sh.Faithful (sh.runCommand world argv front cmd flag)
    ↔ ∀ r ∈ (sh.runCommand world argv front cmd flag).rounds, sh.Regular r
  := by
  rw [runCommand]
  cases cmd with
  | none => simp [Faithful]
  | some cmd =>
    simp only [Option.map_some]
    split
    · simp [Faithful]
    · split
      · simp [Faithful]
      · apply runLoop_faithful_iff

/-- The shell of the board, with the one command `echo`, whose handler only prints. -/
def sam460exEcho : Shell Unit where
  cbsize := 100
  maxargs := 16
  maxargs_pos := Nat.succ_pos 15
  table := [⟨ascii "echo", 16, 1, false, fun world _ parsed => ⟨world, 0, parsed.argv⟩⟩]
  getenv := fun _ _ => none
  clearCtrlc := id
  hadCtrlc := fun _ => false

/-- Seventeen words are cut off behind the sixteenth, and sixteen words with a blank behind
them leave in `argv` what was there. -/
theorem echo_incomplete :
  ¬ sam460exEcho.Faithful (sam460exEcho.runCommand () (fun _ => none) 0
      (some (ascii "echo 1 2 3 4 5 6 7 8 9 a b c d e f g")) 0)
    ∧ ¬ sam460exEcho.Faithful (sam460exEcho.runCommand () (fun _ => some 0) 0
      (some (ascii "echo 1 2 3 4 5 6 7 8 9 a b c d e f ")) 0)
  := by
  constructor
  · intro h
    have hround := h _ (List.mem_singleton_self _)
    have hcall := (hround.2 (by decide +kernel)).1
    cases hcall
  · intro h
    have hround := h _ (List.mem_singleton_self _)
    have hnull := (hround.1 _ rfl).null
    revert hnull
    decide +kernel

end Shell

end Cli
