import UBoot.Cli.ReadLine
import UBoot.Cli.RunCommand

/-!
# Completion

`cmd_auto_complete` of `common/command.c` splits the line into words, collects what the last one
may become, and appends what is missing: all of it and a blank if there is one candidate, what they
have in common if there are several.

What is missing is counted from the last argument that `make_argv` finds.  That is not the word at
the end of the line if the line ends in a blank or has too many words, and the candidates need not
begin with it if it has a length modifier.
-/

namespace Cli

/-- A completer: from the arguments, the last character and `maxv`, the candidates. -/
abbrev Completer := List (List Byte) → Byte → ℕ → List (List Byte)

/-- The configuration, the command table, and the completers of the commands. -/
structure CompleteConfig (ω : Type*) where
  cbsize : ℕ
  maxargs : ℕ
  table : List (Cmd ω)
  complete : List Byte → Option Completer

/-- What stands for the candidates that there is no room for. -/
def dots : List Byte := ascii "..."

/-- The size of `cmdv`. -/
def maxv : ℕ := 20

/-- `.`. -/
def dot : Byte := 46

/-! ### The environment -/

/-- The loop of `env_complete` over the strings of the environment. -/
def envLoop (var : List Byte) (maxv : ℕ) : ℕ → ℕ → List (List Byte) → List (List Byte)
  | _, _, [] => []
  | found, bufsz, lval :: env =>
    let name := lval.takeWhile (· ≠ 61)
    if 0 < var.length ∧ var.isPrefixOf name = false then envLoop var maxv found bufsz env
    else if maxv - 2 ≤ found ∨ bufsz < name.length + 1 then [dots]
    else name :: envLoop var maxv (found + 1) (bufsz - (name.length + 1)) env

/-- `env_complete`. -/
def envComplete (env : List (List Byte)) (var : List Byte) (maxv bufsz : ℕ) : List (List Byte) :=
  envLoop var maxv 0 bufsz env

/-- A NUL or a blank. -/
def isSpace (c : Byte) : Bool := c = 0 || isBlank c

/-- `var_complete`. -/
def varComplete (env : List (List Byte)) : Completer := fun argv lastChar maxv =>
  if isSpace lastChar ∧ argv.length = 1 then envComplete env [] maxv 512
  else if isSpace lastChar = false ∧ argv.length = 2 then
    envComplete env (argv.getD 1 []) maxv 512
  else []

/-! ### The candidates -/

/-- `make_argv`, for `room` arguments. -/
def makeArgv : ℕ → List Byte → List (List Byte)
  | 0, _ => []
  | room + 1, s =>
    let s := s.dropWhile isBlank
    if s = [] then []
    else
      let arg := s.takeWhile fun c => !isBlank c
      match s.dropWhile fun c => !isBlank c with
      | [] => [arg]
      | _ :: s => arg :: makeArgv room s

/-- The loops of `complete_cmdv` over the commands. -/
def collect : ℕ → List (List Byte) → List (List Byte)
  | _, [] => []
  | found, name :: names =>
    if maxv - 2 ≤ found then [dots] else name :: collect (found + 1) names

variable {ω : Type*} (cfg : CompleteConfig ω)

/-- `complete_cmdv`. -/
def completeCmdv (argv : List (List Byte)) (lastChar : Byte) : List (List Byte) :=
  let names := cfg.table.map Cmd.name
  match argv with
  | [] => collect 0 names
  | cmd :: _ =>
    let cmd := cmd.takeWhile (· ≠ dot)
    if 1 < argv.length ∨ isSpace lastChar then
      match (findLoop cmd [] cfg.table).bind fun cmdtp => cfg.complete cmdtp.name with
      | none => []
      | some complete => complete argv lastChar maxv
    else collect 0 (names.filter cmd.isPrefixOf)

/-- The number of characters that two strings have in common. -/
def matchLen : List Byte → List Byte → ℕ
  | c :: s, d :: t => if d = c then matchLen s t + 1 else 0
  | _, _ => 0

/-- `find_common_prefix`. -/
def findCommonPrefix : List (List Byte) → ℕ
  | [] => 0
  | anchor :: argv => argv.foldl (fun len t => matchLen (anchor.take len) t) anchor.length

/-- The candidates for a line. -/
def candidates (line : List Byte) : List (List Byte) :=
  completeCmdv cfg (makeArgv cfg.maxargs line) (line.getLast?.getD 0)

/-- `argv[argc - 1]`, if there is one. -/
def lastArg (line : List Byte) : Option (List Byte) := (makeArgv cfg.maxargs line).getLast?

/-! ### The insertion -/

/-- What becomes of the line; `outside` is a read outside of `argv` or of a candidate. -/
inductive Completion where
  | outside
  | unchanged
  | changed (line : List Byte)
  deriving DecidableEq

/-- The end of `cmd_auto_complete`: a text is appended if it fits. -/
def insertText (line text : List Byte) : Completion :=
  if cfg.cbsize - 2 ≤ line.length + text.length then .unchanged else .changed (line ++ text)

/-- `cmd_auto_complete`; `console` says that the prompt is the usual one. -/
def cmdAutoComplete (console : Bool) (line : List Byte) : Completion :=
  if console = false then .unchanged
  else
    match candidates cfg line with
    | [] => .unchanged
    | [cand] =>
      match lastArg cfg line with
      | none => .outside
      | some arg =>
        if cand.length < arg.length then .outside
        else insertText cfg line (cand.drop arg.length ++ [blank])
    | cand :: cands =>
      let j := findCommonPrefix (cand :: cands)
      if j = 0 then .unchanged
      else
        match lastArg cfg line with
        | none => .outside
        | some arg =>
          if arg.length < j then insertText cfg line ((cand.take j).drop arg.length)
          else .unchanged

/-! ### What is expected -/

/-- The word at the end of the line, empty behind a blank. -/
def lastWord (line : List Byte) : List Byte :=
  (line.reverse.takeWhile fun c => !isBlank c).reverse

/-- A line that is changed goes on as the candidates do. -/
def Completes (console : Bool) (line : List Byte) : Prop :=
  match cmdAutoComplete cfg console line with
  | .outside => False
  | .unchanged => True
  | .changed line' => ∃ text, line' = line ++ text ∧ line'.length ≤ cfg.cbsize - 2
    ∧ (∀ cand, candidates cfg line = [cand] → lastWord line ++ text = cand ++ [blank])
    ∧ ((candidates cfg line).length ≠ 1 →
      ∀ cand ∈ candidates cfg line, lastWord line ++ text <+: cand)

/-- The last argument is the word at the end of the line, and the candidates begin with it. -/
def Typed (line : List Byte) : Prop :=
  (lastArg cfg line).map List.length = some (lastWord line).length
    ∧ ∀ cand ∈ candidates cfg line, lastWord line <+: cand

/-- There is nothing to be appended, or no room for it. -/
def Quiet (line : List Byte) : Prop :=
  match candidates cfg line, (lastArg cfg line).map List.length with
  | [], _ => True
  | [cand], some k => k ≤ cand.length ∧ cfg.cbsize - 2 ≤ line.length + (cand.length - k + 1)
  | [_], none => False
  | cands, some k => findCommonPrefix cands ≤ k
    ∨ cfg.cbsize - 2 ≤ line.length + (findCommonPrefix cands - k)
  | cands, none => findCommonPrefix cands = 0

/-! ### Common prefixes -/

theorem take_matchLen (s t : List Byte) :
  s.take (matchLen s t) <+: t
  := by
  induction s, t using matchLen.induct with
  | case1 s d t ih =>
    rw [matchLen, if_pos rfl, List.take_succ_cons]
    exact List.prefix_cons_inj d |>.mpr ih
  | case2 c s d t hne =>
    rw [matchLen, if_neg hne]
    exact List.nil_prefix
  | case3 s t h =>
    rw [matchLen]
    · exact List.nil_prefix
    · exact h

theorem matchLen_le (s t : List Byte) :
  matchLen s t ≤ s.length
  := by
  induction s, t using matchLen.induct with
  | case1 s d t ih =>
    rw [matchLen, if_pos rfl]
    exact Nat.succ_le_succ ih
  | case2 c s d t hne =>
    rw [matchLen, if_neg hne]
    exact Nat.zero_le _
  | case3 s t h =>
    rw [matchLen]
    · exact Nat.zero_le _
    · exact h

/-- Each round makes the prefix shorter, and fit for one more string. -/
theorem take_foldl_matchLen (anchor : List Byte) (argv : List (List Byte)) (len : ℕ) :
  argv.foldl (fun len t => matchLen (anchor.take len) t) len ≤ len
    ∧ ∀ t ∈ argv, anchor.take (argv.foldl (fun len t => matchLen (anchor.take len) t) len) <+: t
  := by
  induction argv generalizing len with
  | nil => exact ⟨le_rfl, nofun⟩
  | cons t argv ih =>
    rw [List.foldl_cons]
    obtain ⟨hle, hpre⟩ := ih (matchLen (anchor.take len) t)
    have hlen : matchLen (anchor.take len) t ≤ len :=
      (matchLen_le _ t).trans (List.length_take_le _ _)
    refine ⟨hle.trans hlen, ?_⟩
    intro u hu
    rcases List.mem_cons.mp hu with rfl | hu
    · have htake := take_matchLen (anchor.take len) u
      rw [List.take_take, Nat.min_eq_left hlen] at htake
      exact (List.take_prefix_take_left hle).trans htake
    · exact hpre u hu

theorem findCommonPrefix_le (cand : List Byte) (cands : List (List Byte)) :
  findCommonPrefix (cand :: cands) ≤ cand.length
  := (take_foldl_matchLen cand cands cand.length).1

theorem take_findCommonPrefix (cand : List Byte) (cands : List (List Byte)) :
  ∀ t ∈ cand :: cands, cand.take (findCommonPrefix (cand :: cands)) <+: t
  := by
  intro t ht
  rcases List.mem_cons.mp ht with rfl | ht
  · exact List.take_prefix _ _
  · exact (take_foldl_matchLen cand cands cand.length).2 t ht

/-! ### What is appended -/

variable {cfg} {line : List Byte}

theorem append_drop_of_prefix {w text : List Byte} (h : w <+: text) :
  w ++ text.drop w.length = text
  := by
  obtain ⟨rest, rfl⟩ := h
  rw [List.drop_left]

theorem insertText_cases (line text : List Byte) :
  cfg.cbsize - 2 ≤ line.length + text.length ∧ insertText cfg line text = .unchanged
    ∨ line.length + text.length < cfg.cbsize - 2
      ∧ insertText cfg line text = .changed (line ++ text)
  := by
  rw [insertText]
  split_ifs with h
  · exact .inl ⟨h, rfl⟩
  · exact .inr ⟨not_le.mp h, rfl⟩

theorem completes_unchanged {console : Bool}
    (h : cmdAutoComplete cfg console line = .unchanged) :
  Completes cfg console line
  := by
  rw [Completes, h]
  trivial

theorem completes_changed_iff {console : Bool} {text : List Byte}
    (h : cmdAutoComplete cfg console line = .changed (line ++ text))
    (hroom : line.length + text.length < cfg.cbsize - 2) :
  Completes cfg console line
    ↔ (∀ cand, candidates cfg line = [cand] → lastWord line ++ text = cand ++ [blank])
      ∧ ((candidates cfg line).length ≠ 1 →
        ∀ cand ∈ candidates cfg line, lastWord line ++ text <+: cand)
  := by
  rw [Completes, h]
  constructor
  · rintro ⟨text', htext, -, hsingle, hseveral⟩
    obtain rfl := List.append_cancel_left htext
    exact ⟨hsingle, hseveral⟩
  · rintro ⟨hsingle, hseveral⟩
    refine ⟨text, rfl, ?_, hsingle, hseveral⟩
    rw [List.length_append]
    exact hroom.le

/-- One candidate. -/
theorem completes_single_iff {cand : List Byte} (hcand : candidates cfg line = [cand]) :
  Completes cfg true line ↔ Typed cfg line ∨ Quiet cfg line
  := by
  cases harg : lastArg cfg line with
  | none => simp [Completes, Typed, Quiet, cmdAutoComplete, hcand, harg]
  | some arg =>
    have htyped : Typed cfg line ↔ arg.length = (lastWord line).length ∧ lastWord line <+: cand := by
      simp [Typed, hcand, harg]
    have hquiet : Quiet cfg line ↔ arg.length ≤ cand.length
        ∧ cfg.cbsize - 2 ≤ line.length + (cand.length - arg.length + 1) := by
      simp [Quiet, hcand, harg]
    have hauto : cmdAutoComplete cfg true line = if cand.length < arg.length then .outside
        else insertText cfg line (cand.drop arg.length ++ [blank]) := by
      simp [cmdAutoComplete, hcand, harg]
    rw [htyped, hquiet]
    by_cases hlong : cand.length < arg.length
    · rw [if_pos hlong] at hauto
      rw [Completes, hauto]
      constructor
      · exact False.elim
      · rintro (⟨hlen, hpre⟩ | ⟨hle, -⟩)
        · have := hpre.length_le
          omega
        · omega
    · rw [if_neg hlong] at hauto
      have hlen : (cand.drop arg.length ++ [blank]).length = cand.length - arg.length + 1 := by simp
      rcases @insertText_cases _ cfg line (cand.drop arg.length ++ [blank]) with
        ⟨hfull, hins⟩ | ⟨hroom, hins⟩
      · rw [hlen] at hfull
        exact iff_of_true (completes_unchanged (hauto.trans hins)) (.inr ⟨not_lt.mp hlong, hfull⟩)
      · rw [completes_changed_iff (hauto.trans hins) hroom, hcand]
        rw [hlen] at hroom
        constructor
        · rintro ⟨hsingle, -⟩
          have heq := hsingle cand rfl
          rw [← List.append_assoc] at heq
          have heq := List.append_cancel_right heq
          have hle := congrArg List.length heq
          rw [List.length_append, List.length_drop] at hle
          exact .inl ⟨by omega, _, heq⟩
        · rintro (⟨hk, hpre⟩ | ⟨-, hfull⟩)
          · refine ⟨?_, fun hne => absurd rfl hne⟩
            intro cand' hcand'
            obtain rfl := List.singleton_inj.mp hcand'
            rw [hk, ← List.append_assoc, append_drop_of_prefix hpre]
          · omega

/-- Several candidates. -/
theorem completes_several {cand cand' : List Byte} {cands : List (List Byte)}
    (hcand : candidates cfg line = cand :: cand' :: cands)
    (h : Typed cfg line ∨ Quiet cfg line) :
  Completes cfg true line
  := by
  have hauto : cmdAutoComplete cfg true line
      = if findCommonPrefix (cand :: cand' :: cands) = 0 then .unchanged
        else
          match lastArg cfg line with
          | none => .outside
          | some arg =>
            if arg.length < findCommonPrefix (cand :: cand' :: cands) then
              insertText cfg line
                ((cand.take (findCommonPrefix (cand :: cand' :: cands))).drop arg.length)
            else .unchanged := by
    simp [cmdAutoComplete, hcand]
  rw [Typed, Quiet, hcand] at h
  have hle := findCommonPrefix_le cand (cand' :: cands)
  have hcommon := take_findCommonPrefix cand (cand' :: cands)
  generalize hj : findCommonPrefix (cand :: cand' :: cands) = j at hauto hle hcommon
  by_cases hzero : j = 0
  · rw [if_pos hzero] at hauto
    exact completes_unchanged hauto
  rw [if_neg hzero] at hauto
  cases harg : lastArg cfg line with
  | none =>
    rw [harg] at h
    rcases h with ⟨h, -⟩ | h
    · cases h
    · exact absurd (hj.symm.trans h) hzero
  | some arg =>
    simp only [harg] at hauto
    split_ifs at hauto with hlt
    · rw [harg] at h
      have hlen : ((cand.take j).drop arg.length).length = j - arg.length := by
        rw [List.length_drop, List.length_take, Nat.min_eq_left hle]
      rcases @insertText_cases _ cfg line ((cand.take j).drop arg.length) with
        ⟨hfull, hins⟩ | ⟨hroom, hins⟩
      · exact completes_unchanged (hauto.trans hins)
      · rw [completes_changed_iff (hauto.trans hins) hroom, hcand]
        rw [hlen] at hroom
        refine ⟨nofun, fun _ => ?_⟩
        rcases h with ⟨hk, hpre⟩ | hquiet
        · -- the last word is the beginning of what is common
          have hk : arg.length = (lastWord line).length := Option.some.inj hk
          have hword : lastWord line <+: cand.take j := by
            apply List.prefix_of_prefix_length_le (hpre cand (by simp)) (List.take_prefix _ _)
            rw [List.length_take]
            omega
          rw [hk, append_drop_of_prefix hword]
          exact hcommon
        · have hquiet : findCommonPrefix (cand :: cand' :: cands) ≤ arg.length
              ∨ cfg.cbsize - 2
                ≤ line.length + (findCommonPrefix (cand :: cand' :: cands) - arg.length) := hquiet
          omega
    · exact completes_unchanged hauto

/--
A completion is right if it counts from the word at the end of the line and the candidates begin
with that word, or if it appends nothing; for a single candidate only then.
-/
theorem completes_of_typed (cfg : CompleteConfig ω) (console : Bool) (line : List Byte) :
  (console = false ∨ Typed cfg line ∨ Quiet cfg line → Completes cfg console line)
    ∧ ((candidates cfg line).length = 1 →
      (Completes cfg console line ↔ console = false ∨ Typed cfg line ∨ Quiet cfg line))
  := by
  cases console with
  | false =>
    have h : Completes cfg false line := completes_unchanged rfl
    exact ⟨fun _ => h, fun _ => iff_of_true h (.inl rfl)⟩
  | true =>
    simp only [Bool.true_eq_false, false_or]
    rcases hcand : candidates cfg line with _ | ⟨cand, _ | ⟨cand', cands⟩⟩
    · refine ⟨fun _ => completes_unchanged ?_, by simp⟩
      simp [cmdAutoComplete, hcand]
    · exact ⟨(completes_single_iff hcand).mpr, fun _ => completes_single_iff hcand⟩
    · exact ⟨completes_several hcand, by simp⟩

/-- A table of three commands, and an environment with two variables. -/
def sampleComplete : CompleteConfig Unit where
  cbsize := 40
  maxargs := 16
  table := [⟨ascii "cp", 0, 0, false, fun w _ p => ⟨w, 0, p.argv⟩⟩,
    ⟨ascii "printenv", 0, 0, false, fun w _ p => ⟨w, 0, p.argv⟩⟩,
    ⟨ascii "protect", 0, 0, false, fun w _ p => ⟨w, 0, p.argv⟩⟩]
  complete name :=
    if name = ascii "printenv" then
      some (varComplete [ascii "bootdelay=5", ascii "ethaddr=0"])
    else none

/-- One variable begins with `boot`. -/
theorem completes_of_typed_printenv :
  Completes sampleComplete true (ascii "printenv boot")
  := by
  apply (completes_of_typed _ _ _).1
  right
  left
  constructor
  · decide +kernel
  · decide +kernel

/-- A table with a single command. -/
def singleComplete : CompleteConfig Unit := { sampleComplete with
  table := [⟨ascii "go", 0, 0, false, fun w _ p => ⟨w, 0, p.argv⟩⟩]
  complete _ := some (varComplete [ascii "bootdelay=5"]) }

theorem not_completes_of_changed {console : Bool} {line text cand : List Byte}
    (h : cmdAutoComplete cfg console line = .changed (line ++ text))
    (hcand : candidates cfg line = [cand]) (hne : lastWord line ++ text ≠ cand ++ [blank]) :
  ¬ Completes cfg console line
  := by
  rw [Completes, h]
  rintro ⟨text', htext, -, hsingle, -⟩
  obtain rfl := List.append_cancel_left htext
  exact hne (hsingle cand hcand)

/--
Behind `go ` the first two characters of the variable are left out; `cp.b` is longer than its
candidate, and in an empty line there is no argument.
-/
theorem not_completes_blank :
  ¬ Completes singleComplete true (ascii "go ")
    ∧ ¬ Completes sampleComplete true (ascii "cp.b")
    ∧ ¬ Completes singleComplete true []
  := by
  refine ⟨?_, ?_, ?_⟩
  · apply @not_completes_of_changed _ _ _ _ (ascii "otdelay ") (ascii "bootdelay")
    · decide +kernel
    · decide +kernel
    · decide +kernel
  · have h : cmdAutoComplete sampleComplete true (ascii "cp.b") = .outside := by decide +kernel
    rw [Completes, h]
    exact not_false
  · have h : cmdAutoComplete singleComplete true [] = .outside := by decide +kernel
    rw [Completes, h]
    exact not_false

end Cli
