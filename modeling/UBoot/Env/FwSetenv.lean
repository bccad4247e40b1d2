import UBoot.Env.FiniteMap

/-!
# `fw_setenv`

The Linux tool of `tools/env/fw_env.c` edits the same environment with code of its own.
Its search is bounded, it marks the end of the area in another way when it deletes the
last entry, and it writes the result back to the device.  On every well-formed area it
does to the entries what `_do_setenv` does (`fwSetenv_effect`), so that the two agree
(`fwSetenv_doSetenv_agree`).
-/

namespace Env

namespace Fw

open Memory

variable {d : ℕ → Byte} {size : ℕ} {es : List Entry} {name : List Byte}
  {args : List (List Byte)}

/-- How a call of `fw_setenv` ends. -/
inductive Reply where
  | ok
  | missingName
  | initFailed
  | notTerminated
  | cannotOverwrite
  | overflow
  | cannotWrite
  deriving DecidableEq

/-- The return code. -/
def Reply.rc : Reply → ℤ
  | ok => 0
  | _ => -1

/-- The message printed for the variable `name`. -/
def Reply.message (name : String) : Reply → String
  | ok | missingName | initFailed => ""
  | notTerminated => "## Error: environment not terminated\n"
  | cannotOverwrite => "Can't overwrite \"" ++ name ++ "\"\n"
  | overflow => "Error: environment overflow, \"" ++ name ++ "\" deleted\n"
  | cannotWrite => "Error: can't write fw_env to flash\n"

/-- What the search ends with. -/
inductive Search where
  | absent
  | found (f : Found)
  | notTerminated

/-- The search for a variable from the entry at `env` on, in at most `n` rounds.  The scan
of an entry gives up once it has left the area.  `envmatch` is the one of the firmware. -/
def findVar (d : ℕ → Byte) (size : ℕ) (name : List Byte) : ℕ → ℕ → Option Search
  | 0, _ => none
  | n + 1, env =>
    if d env = 0 then some .absent
    else
      match strEnd d (size + 1 - env) env with
      | none => some .notTerminated
      | some nxt => do
        match ← envmatch d name env with
        | some oldval => some (.found ⟨oldval, env, nxt⟩)
        | none => findVar d size name n (nxt + 1)

/-- The deletion of the entry at `env`, whose NUL is at `nxt`. -/
def deleteVar (d : ℕ → Byte) (size env nxt : ℕ) : Option (ℕ → Byte) := do
  let nxt := nxt + 1
  let (d, env) ←
    if d nxt = 0 then some (Function.update d env 0, env) else shiftDown size d env nxt
  some (Function.update d (env + 1) 0)

/-- `WRITE_FLASH`: the checksum is renewed and `flash_io (O_RDWR)` writes the environment
back, where `flashIo` tells whether it succeeds. -/
def writeFlash (size : ℕ) (flashIo : Image → Bool) (d : ℕ → Byte) : Reply × Image :=
  let env : Image := ⟨Crc32.crc32 0 (read d 0 size), d⟩
  if flashIo env then (.ok, env) else (.cannotWrite, env)

/-- The part of `fw_setenv` after the deletion, on an environment with the checksum `crc`. -/
def defineVar (size : ℕ) (flashIo : Image → Bool) (crc : Word) (d : ℕ → Byte)
    (name : List Byte) (args : List (List Byte)) : Option (Reply × Image) :=
  if args = [] then some (writeFlash size flashIo d)
  else do
    let env ← endScan d size 0
    let env := if env > 0 then env + 1 else env
    if newLen name args > size - env then some (.overflow, ⟨crc, d⟩)
    else some (writeFlash size flashIo (appendVar d env name args))

/-- `fw_setenv` on the environment `env_init` has read, or `none` when it has failed.  The
arguments `argv` are those after the name of the tool. -/
def fwSetenv (size : ℕ) (flashIo : Image → Bool) (environment : Option Image)
    (argv : List (List Byte)) : Option (Reply × Option Image) :=
  match argv, environment with
  | [], _ => some (.missingName, environment)
  | _ :: _, none => some (.initFailed, none)
  | name :: args, some env => do
    match ← findVar env.data size name size 0 with
    | .notTerminated => some (.notTerminated, environment)
    | .absent => (defineVar size flashIo env.crc env.data name args).map (Prod.map id some)
    | .found f =>
      if name = ascii "ethaddr" ∨ name = ascii "serial#" then
        some (.cannotOverwrite, environment)
      else do
        let d ← deleteVar env.data size f.env f.nxt
        (defineVar size flashIo env.crc d name args).map (Prod.map id some)

/-! ### The search -/

/-- On a terminated list of entries the search is that of the firmware. -/
theorem findVar_eq {n p : ℕ} (hname : IsName name) (h : Holds d p (flatten es ++ [0]))
    (hsize : p + (flatten es).length ≤ size) :
  findVar d size name n p = (Env.findVar d size name n p).map fun
    | none => .absent
    | some f => .found f
  := by
  induction es generalizing n p with
  | nil =>
    cases n with
    | zero => rfl
    | succ n => simp [findVar, Env.findVar, h.1]
  | cons e es ih =>
    cases n with
    | zero => rfl
    | succ n =>
      obtain ⟨h0, he, hes⟩ := holds_flatten_cons h
      simp only [flatten_cons, List.length_append, List.length_cons] at hsize
      have hend : strEnd d (size + 1 - p) p = some (p + e.bytes.length) :=
        strEnd_eq he e.isStr_bytes (by omega)
      have hend' : strEnd d size p = some (p + e.bytes.length) :=
        strEnd_eq he e.isStr_bytes (by omega)
      have hmatch := envmatch_eq hname e.isName (holds_append.mp he).1
      have hrest := ih (n := n) hes (by omega)
      by_cases hen : e.name = name
      · simp [findVar, Env.findVar, h0, hend, hend', hmatch, hen]
      · simp [findVar, Env.findVar, h0, hend, hend', hmatch, hen, hrest]

/-! ### The deletion -/

/-- Where the next entry is not the end of the area, or the deleted entry is the first, the
deletion is that of the firmware; else it writes one more NUL behind the end. -/
theorem deleteVar_cases (d : ℕ → Byte) (size env nxt : ℕ) :
  deleteVar d size env nxt = Env.deleteVar d size env nxt
    ∨ ∃ d', Env.deleteVar d size env nxt = some d'
      ∧ deleteVar d size env nxt = some (Function.update d' (env + 1) 0)
      ∧ d' env = 0 ∧ d (nxt + 1) = 0 ∧ 0 < env
  := by
  by_cases hnxt : d (nxt + 1) = 0
  · by_cases henv : env > 0
    · right
      refine ⟨Function.update d env 0, ?_, ?_, by simp, hnxt, henv⟩
      · simp [Env.deleteVar, hnxt, henv, Nat.sub_add_cancel henv]
      · simp [deleteVar, hnxt]
    · left
      simp [deleteVar, Env.deleteVar, hnxt, henv]
  · left
    simp [deleteVar, Env.deleteVar, hnxt]

theorem deleteVar_eq {es₁ es₂ : List Entry} {e : Entry}
    (h : WellFormed size d (es₁ ++ e :: es₂)) :
  ∃ d', deleteVar d size (flatten es₁).length ((flatten es₁).length + e.bytes.length) = some d'
    ∧ WellFormed size d' (es₁ ++ es₂)
  := by
  obtain ⟨d', hd', hwf, -⟩ := Env.deleteVar_eq h
  obtain heq | ⟨d'', hd'', heq, -, hnul, hpos⟩ := deleteVar_cases d size (flatten es₁).length
    ((flatten es₁).length + e.bytes.length)
  · exact ⟨d', heq.trans hd', hwf⟩
  · obtain rfl : d' = d'' := Option.some.inj (hd'.symm.trans hd'')
    refine ⟨_, heq, hwf.nodup, hwf.fits, ?_⟩
    -- nothing follows the deleted entry, and the additional NUL lies behind the end
    obtain rfl : es₂ = [] := by
      cases es₂ with
      | nil => rfl
      | cons e₂ es₂ =>
        have hf := h.holds_flatten
        rw [flatten_append, List.append_assoc, holds_append, Nat.zero_add] at hf
        obtain ⟨-, -, hrest⟩ := holds_flatten_cons hf.2
        exact absurd hnul (holds_flatten_cons hrest).1
    rw [List.append_nil] at hwf ⊢
    apply hwf.holds.congr
    intro q _ hq
    apply Function.update_of_ne
    cases es₁ with
    | nil => simp at hpos
    | cons e₁ es₁ =>
      rw [encode, List.length_append, List.length_singleton] at hq
      omega

/-! ### A whole call -/

theorem defineVar_eq (flashIo : Image → Bool) (crc : Word) (h : WellFormed size d es)
    (hname : IsName name) (hargs : ∀ a ∈ args, IsStr a) (hnew : ∀ e ∈ es, e.name ≠ name)
    (hio : ∀ env, flashIo env = true) :
  ∃ r env, defineVar size flashIo crc d name args = some (r, env)
    ∧ (args = [] → r = .ok ∧ WellFormed size env.data es)
    ∧ (args ≠ [] → Fits size es name args →
        r = .ok ∧ WellFormed size env.data (es ++ [newEntry hname hargs]))
    ∧ (args ≠ [] → ¬ Fits size es name args → r = .overflow)
  := by
  by_cases hnil : args = []
  · subst hnil
    refine ⟨.ok, ⟨Crc32.crc32 0 (read d 0 size), d⟩, ?_, by simpa using h, by simp, by simp⟩
    simp [defineVar, writeFlash, hio]
  · obtain ⟨a, args, rfl⟩ := List.exists_cons_of_ne_nil hnil
    obtain ⟨env, hscan, henv⟩ := endScan_encode h.holds h.fits
    by_cases hfits : Fits size es name (a :: args)
    · have hroom : ¬ newLen name (a :: args) > size - (flatten es).length := by
        rw [newLen_gt_iff, not_not]
        exact hfits
      have heq : defineVar size flashIo crc d name (a :: args)
          = some (writeFlash size flashIo (appendVar d (flatten es).length name (a :: args))) := by
        simp only [defineVar, hnil, if_false, hscan, Option.bind_eq_bind, Option.bind_some, henv,
          if_neg hroom]
      rw [writeFlash, if_pos (hio _)] at heq
      exact ⟨_, _, heq, by simp,
        fun _ _ => ⟨rfl, (wellFormed_appendVar h hname hargs hnil hnew hfits).1⟩,
        fun _ hover => absurd hfits hover⟩
    · refine ⟨.overflow, ⟨crc, d⟩, ?_, by simp, fun _ hfit => absurd hfit hfits, fun _ _ => rfl⟩
      simp only [defineVar, hnil, if_false, hscan, Option.bind_eq_bind, Option.bind_some, henv,
        if_pos (newLen_gt_iff.mpr hfits)]

/-- What a call does to the entries of a well-formed area. -/
theorem fwSetenv_effect (flashIo : Image → Bool) (crc : Word) (h : WellFormed size d es)
    (hname : IsName name) (hplain : Plain name) (hargs : ∀ a ∈ args, IsStr a)
    (hio : ∀ env, flashIo env = true) :
  ∃ r env, fwSetenv size flashIo (some ⟨crc, d⟩) (name :: args) = some (r, some env)
    ∧ (args = [] → r = .ok ∧ WellFormed size env.data (others es name))
    ∧ (args ≠ [] → Fits size (others es name) name args →
        r = .ok ∧ WellFormed size env.data (others es name ++ [newEntry hname hargs]))
    ∧ (args ≠ [] → ¬ Fits size (others es name) name args → r = .overflow)
  := by
  have hlen := h.length_flatten
  have hfind := findVar_eq (n := size) hname h.holds_flatten (by omega : 0 + _ ≤ size)
  by_cases hnone : lookup es name = none
  · have hne := lookup_eq_none.mp hnone
    rw [Env.findVar_none h hname hne, Option.map_some] at hfind
    obtain ⟨r, env, heq, heff⟩ := defineVar_eq flashIo crc h hname hargs hne hio
    rw [others_of_ne hne]
    refine ⟨r, env, ?_, heff⟩
    simp [fwSetenv, hfind, heq]
  · obtain ⟨es₁, e, es₂, rfl, rfl, hne⟩ := exists_split_of_lookup hnone
    obtain ⟨oldval, hfound⟩ := Env.findVar_some h hne
    rw [hfound, Option.map_some] at hfind
    obtain ⟨d', hd', hwf⟩ := deleteVar_eq h
    rw [← others_append_cons h.nodup] at hwf
    obtain ⟨r, env, heq, heff⟩ :=
      defineVar_eq flashIo crc hwf hname hargs (fun _ => mem_others) hio
    refine ⟨r, env, ?_, heff⟩
    simp only [Plain, List.mem_cons, not_or] at hplain
    simp [fwSetenv, hfind, hplain, hd', heq]

end Fw

/-- **The two tools agree.**  On the same well-formed area, `fw_setenv` (with a device that
takes the result) and `_do_setenv` both report an overflow, or both succeed and leave the
same sequence of entries. -/
theorem fwSetenv_doSetenv_agree (c : Config) (x : Devices) (flag : Word) (g : Globals)
    (es : List Entry) (name : List Byte) (args : List (List Byte)) (flashIo : Image → Bool)
    (hram : g.inRam = true) (h : WellFormed c.envSize g.env.data es) (hname : IsName name)
    (hplain : Plain name) (hargs : ∀ a ∈ args, IsStr a) (hio : ∀ env, flashIo env = true) :
  ∃ r g' r' env', doSetenv c x flag g name args = some (r, g')
    ∧ Fw.fwSetenv c.envSize flashIo (some g.env) (name :: args) = some (r', some env')
    ∧ ((r = .overflow ∧ r' = .overflow)
      ∨ (r = .ok ∧ r' = .ok
        ∧ ∃ strings, decode g'.env.data c.envSize c.envSize 0 = some strings
          ∧ decode env'.data c.envSize c.envSize 0 = some strings))
  := by
  obtain ⟨r, g', heq, heff, hr, -, -⟩ := doSetenv_effect (x := x) hram h hname.1 hargs
  obtain ⟨r', env', heq', hdel, hdef, hover⟩ :=
    Fw.fwSetenv_effect flashIo g.env.crc h hname hplain hargs hio
  refine ⟨r, g', r', env', heq, heq', ?_⟩
  cases heff with
  | refused _ hok hov =>
    obtain rfl | rfl := hr hname.2 hplain
    · contradiction
    · contradiction
  | deleted hnil hwf _ =>
    obtain ⟨hok, hwf'⟩ := hdel hnil
    exact .inr ⟨rfl, hok, _, hwf.decode_eq, hwf'.decode_eq⟩
  | defined hname' hargs' hne hfits hwf _ =>
    obtain ⟨hok, hwf'⟩ := hdef hne hfits
    exact .inr ⟨rfl, hok, _, hwf.decode_eq, hwf'.decode_eq⟩
  | overflow hne hfits _ _ _ => exact .inl ⟨rfl, hover hne hfits⟩

theorem fwSetenv_doSetenv_agree_sam460ex :
  ∃ r g' r' env',
    doSetenv sam460ex .accepting 0 (.ofEntries sam460ex [entryAB]) (ascii "a") [ascii "x"]
      = some (r, g')
    ∧ Fw.fwSetenv sam460ex.envSize (fun _ => true) (some (Globals.ofEntries sam460ex [entryAB]).env)
        [ascii "a", ascii "x"] = some (r', some env')
    ∧ ((r = .overflow ∧ r' = .overflow)
      ∨ (r = .ok ∧ r' = .ok
        ∧ ∃ strings, decode g'.env.data sam460ex.envSize sam460ex.envSize 0 = some strings
          ∧ decode env'.data sam460ex.envSize sam460ex.envSize 0 = some strings))
  := by
  have hwf : WellFormed sam460ex.envSize (Globals.ofEntries sam460ex [entryAB]).env.data
      [entryAB] := wellFormed_ofEntries (by decide) (by decide)
  exact fwSetenv_doSetenv_agree sam460ex .accepting 0 (.ofEntries sam460ex [entryAB]) [entryAB]
    (ascii "a") [ascii "x"] (fun _ => true) rfl hwf (by decide) (by decide) (by decide)
    (fun _ => rfl)

end Env
