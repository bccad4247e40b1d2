import UBoot.Lib.Memory

/-!
# Reading a line

`readline_into_buffer` of `common/main.c` without command line editing: a buffer that grows and
shrinks at its end, the number `n` of its characters, and the column `col` of the cursor on the
screen, where tabs are expanded.  The column follows every key; only when a tab is deleted it is
counted anew.
-/

namespace Cli

/-- A tab. -/
def tab : Byte := 9

/-- A blank. -/
def blank : Byte := 32

/-- The column after a character. -/
def advance (col : ℤ) (c : Byte) : ℤ := if c = tab then col + (8 - col % 8) else col + 1

/-- The variables of `readline_into_buffer`; `p` counts from the start of the buffer. -/
structure ReadLine where
  buffer : ℕ → Byte
  p : ℕ
  n : ℕ
  col : ℤ

namespace ReadLine

variable (cbsize : ℕ) (plen : ℤ)

/-- The column when everything up to the prompt has been erased. -/
def eraseLine (col : ℤ) : ℤ := if plen < col then plen else col

/-- `delete_char`. -/
def deleteChar (s : ReadLine) : ReadLine :=
  if s.n = 0 then s
  else
    let p := s.p - 1
    { s with
      p := p
      n := s.n - 1
      col :=
        if s.buffer p = tab then
          -- the whole line is typed anew
          (Memory.read s.buffer 0 p).foldl advance (eraseLine plen s.col)
        else s.col - 1 }

/-- The loop for `^W`. -/
def eraseWordLoop : ℕ → ReadLine → ReadLine
  | 0, s => s
  | fuel + 1, s =>
    if 0 < s.n ∧ s.buffer s.p ≠ blank then eraseWordLoop fuel (s.deleteChar plen) else s

/-- What becomes of a key: the loop goes on, or the function returns. -/
inductive Outcome where
  | more (s : ReadLine)
  | done (ret : ℤ) (s : ReadLine)

/-- One round of the loop. -/
def key (s : ReadLine) (c : Byte) : Outcome :=
  if c = 13 ∨ c = 10 then .done s.p { s with buffer := Function.update s.buffer s.p 0 }
  else if c = 0 then .more s
  else if c = 3 then .done (-1) { s with buffer := Function.update s.buffer 0 0 }
  else if c = 21 then .more { s with col := eraseLine plen s.col, p := 0, n := 0 }
  else if c = 23 then
    let s := s.deleteChar plen
    .more (eraseWordLoop plen s.n s)
  else if c = 8 ∨ c = 127 then .more (s.deleteChar plen)
  else if s.n < cbsize - 2 then
    .more ⟨Function.update s.buffer s.p c, s.p + 1, s.n + 1, advance s.col c⟩
  else .more s

/-- The loop over the keys that come in. -/
def keys : ReadLine → List Byte → Outcome
  | s, [] => .more s
  | s, c :: cs =>
    match s.key cbsize plen c with
    | .more s => keys s cs
    | .done ret s => .done ret s

/-- `readline_into_buffer`, with a prompt of `plen` characters. -/
def readlineIntoBuffer (buffer : ℕ → Byte) (cs : List Byte) : Outcome :=
  keys cbsize plen ⟨buffer, 0, 0, plen⟩ cs

end ReadLine

/-! ### What the keys mean -/

namespace Edit

/-- The line without its last word and the blank in front of it. -/
def dropWord (line : List Byte) : List Byte :=
  (line.reverse.dropWhile (· ≠ blank)).tail.reverse

/-- The line after a key that does not end it. -/
def key (limit : ℕ) (line : List Byte) (c : Byte) : List Byte :=
  if c = 0 then line
  else if c = 21 then []
  else if c = 23 then dropWord line
  else if c = 8 ∨ c = 127 then line.dropLast
  else if line.length < limit then line ++ [c]
  else line

/-- A key that ends the line. -/
def ends (c : Byte) : Bool := c = 13 ∨ c = 10 ∨ c = 3

/-- The line after keys that do not end it. -/
def keys (limit : ℕ) (cs : List Byte) : List Byte := cs.foldl (key limit) []

/-- The column behind the line, with its tabs expanded. -/
def width (plen : ℤ) (line : List Byte) : ℤ := line.foldl advance plen

end Edit

/-! ### The invariant -/

namespace ReadLine

variable {cbsize : ℕ} {plen : ℤ} {s : ReadLine} {line : List Byte} {c : Byte}

/-- The variables say that the line is `line`. -/
structure Shows (cbsize : ℕ) (plen : ℤ) (line : List Byte) (s : ReadLine) : Prop where
  buffer : Memory.Holds s.buffer 0 line
  p : s.p = line.length
  n : s.n = line.length
  col : s.col = Edit.width plen line
  le : line.length ≤ cbsize - 2

theorem lt_advance (col : ℤ) (c : Byte) :
  col < advance col c
  := by
  rw [advance]
  split_ifs <;> omega

theorem le_width (plen : ℤ) (line : List Byte) :
  plen ≤ Edit.width plen line
  := by
  induction line using List.reverseRecOn with
  | nil => exact le_rfl
  | append_singleton line c ih =>
    rw [Edit.width, List.foldl_append]
    exact le_trans ih (lt_advance _ c).le

theorem eraseLine_width (plen : ℤ) (line : List Byte) :
  eraseLine plen (Edit.width plen line) = plen
  := by
  have hle := le_width plen line
  rw [eraseLine]
  split_ifs <;> omega

theorem Shows.deleteChar (h : Shows cbsize plen line s) :
  Shows cbsize plen line.dropLast (s.deleteChar plen)
  := by
  obtain ⟨hbuffer, hp, hn, hcol, hle⟩ := h
  rw [ReadLine.deleteChar]
  rcases List.eq_nil_or_concat line with rfl | ⟨line, c, rfl⟩
  · rw [if_pos (show s.n = 0 from hn)]
    exact ⟨hbuffer, hp, hn, hcol, hle⟩
  · rw [List.concat_eq_append] at *
    rw [List.length_append, List.length_singleton] at hp hn hle
    rw [if_neg (by omega), List.dropLast_concat]
    obtain ⟨hline, hc, -⟩ := Memory.holds_append.mp hbuffer
    rw [Nat.zero_add] at hc
    have hp' : s.p - 1 = line.length := by omega
    have hn' : s.n - 1 = line.length := by omega
    simp only [hp', hn', hc]
    refine ⟨hline, rfl, rfl, ?_, by omega⟩
    dsimp only
    split_ifs with htab
    · rw [hcol, eraseLine_width, hline.read_eq]
      rfl
    · rw [hcol, Edit.width, List.foldl_append, List.foldl_cons, List.foldl_nil, advance,
        if_neg htab]
      exact Int.add_sub_cancel _ _

theorem buffer_deleteChar (s : ReadLine) (plen : ℤ) :
  (s.deleteChar plen).buffer = s.buffer
  := by
  rw [ReadLine.deleteChar]
  split_ifs <;> rfl

theorem dropWord_concat (line : List Byte) (c : Byte) :
  Edit.dropWord (line ++ [c]) = if c = blank then line else Edit.dropWord line
  := by
  rw [Edit.dropWord, List.reverse_append, List.reverse_singleton, List.singleton_append,
    List.dropWhile_cons]
  split_ifs with h₁ h₂ h₂
  · exact absurd h₂ (by simpa using h₁)
  · rfl
  · simp
  · exact absurd h₂ (by simpa using h₁)

/-- The loop for `^W`, when `c` is the character that has just been deleted. -/
theorem Shows.eraseWordLoop {fuel : ℕ} (h : Shows cbsize plen line s)
    (hc : Memory.Holds s.buffer 0 (line ++ [c])) (hfuel : line.length ≤ fuel) :
  Shows cbsize plen (Edit.dropWord (line ++ [c])) (eraseWordLoop plen fuel s)
  := by
  have hp : s.buffer s.p = c := by
    obtain ⟨-, hc, -⟩ := Memory.holds_append.mp hc
    rwa [Nat.zero_add, ← h.p] at hc
  rw [dropWord_concat]
  induction fuel generalizing line s c with
  | zero =>
    obtain rfl := List.length_eq_zero_iff.mp (Nat.le_zero.mp hfuel)
    have hnil : (if c = blank then [] else Edit.dropWord []) = [] := by split_ifs <;> rfl
    rw [hnil]
    exact h
  | succ fuel ih =>
    rw [ReadLine.eraseWordLoop, hp, h.n]
    by_cases hblank : c = blank
    · rw [if_pos hblank, if_neg (fun hcond => hcond.2 hblank)]
      exact h
    · rw [if_neg hblank]
      rcases List.eq_nil_or_concat line with rfl | ⟨line, d, rfl⟩
      · rw [if_neg (by simp)]
        exact h
      · rw [List.concat_eq_append] at *
        rw [if_pos ⟨by simp, hblank⟩, dropWord_concat]
        have hdelete := h.deleteChar
        have hd := (Memory.holds_append.mp hc).1
        rw [List.dropLast_concat] at hdelete
        rw [← buffer_deleteChar s plen] at hd
        apply ih hdelete hd
        · rw [List.length_append, List.length_singleton] at hfuel
          omega
        · obtain ⟨-, hd, -⟩ := Memory.holds_append.mp hd
          rwa [Nat.zero_add, ← hdelete.p] at hd

theorem shows_start (cbsize : ℕ) (plen : ℤ) (buffer : ℕ → Byte) :
  Shows cbsize plen [] ⟨buffer, 0, 0, plen⟩
  := ⟨Memory.holds_nil _ _, rfl, rfl, rfl, Nat.zero_le _⟩

/-- A key that does not end the line. -/
theorem Shows.key (h : Shows cbsize plen line s) (hc : Edit.ends c = false) :
  ∃ s', s.key cbsize plen c = .more s' ∧ Shows cbsize plen (Edit.key (cbsize - 2) line c) s'
  := by
  simp only [Edit.ends, decide_eq_false_iff_not, not_or] at hc
  rw [ReadLine.key, Edit.key, if_neg (not_or.mpr ⟨hc.1, hc.2.1⟩), if_neg hc.2.2]
  split_ifs with hzero hclear hword hdelete hroom hlimit hlimit
  · exact ⟨s, rfl, h⟩
  · refine ⟨_, rfl, Memory.holds_nil _ _, rfl, rfl, ?_, Nat.zero_le _⟩
    rw [h.col]
    exact eraseLine_width plen line
  · refine ⟨_, rfl, ?_⟩
    rcases List.eq_nil_or_concat line with rfl | ⟨line, d, rfl⟩
    · have hdelete := h.deleteChar
      have hn : (s.deleteChar plen).n = 0 := hdelete.n
      rw [hn]
      exact hdelete
    · rw [List.concat_eq_append] at *
      have hdelete := h.deleteChar
      rw [List.dropLast_concat] at hdelete
      apply hdelete.eraseWordLoop
      · rw [buffer_deleteChar]
        exact h.buffer
      · exact le_of_eq hdelete.n.symm
  · exact ⟨_, rfl, h.deleteChar⟩
  · refine ⟨_, rfl, ?_, ?_, ?_, ?_, ?_⟩
    · apply Memory.holds_append.mpr
      refine ⟨?_, ?_, Memory.holds_nil _ _⟩
      · apply h.buffer.congr
        intro i _ hi
        apply Function.update_of_ne
        rw [h.p]
        omega
      · rw [Nat.zero_add, h.p]
        exact Function.update_self _ _ _
    · simp only [h.p, List.length_append, List.length_singleton]
    · simp only [h.n, List.length_append, List.length_singleton]
    · simp only [h.col, Edit.width, List.foldl_append, List.foldl_cons, List.foldl_nil]
    · rw [List.length_append, List.length_singleton]
      omega
  · rw [h.n] at hroom
    omega
  · rw [h.n] at hroom
    omega
  · exact ⟨s, rfl, h⟩

/-- The keys up to the first one that ends the line. -/
theorem Shows.keys (h : Shows cbsize plen line s) {cs : List Byte}
    (hcs : ∀ c ∈ cs, Edit.ends c = false) (rest : List Byte) :
  ∃ s', s.keys cbsize plen (cs ++ rest) = s'.keys cbsize plen rest
    ∧ Shows cbsize plen (cs.foldl (Edit.key (cbsize - 2)) line) s'
  := by
  induction cs generalizing line s with
  | nil => exact ⟨s, rfl, h⟩
  | cons c cs ih =>
    obtain ⟨hc, hcs⟩ := List.forall_mem_cons.mp hcs
    obtain ⟨s₁, hkey, h₁⟩ := h.key hc
    obtain ⟨s₂, hkeys, h₂⟩ := ih h₁ hcs
    refine ⟨s₂, ?_, h₂⟩
    rw [List.cons_append, ReadLine.keys, hkey]
    exact hkeys

/-- What is expected of `readline_into_buffer` for the keys `cs`. -/
structure Reads (cbsize : ℕ) (plen : ℤ) (buffer : ℕ → Byte) (cs : List Byte) : Prop where
  /-- While no key has ended the line, the variables say what it is. -/
  shows : (∀ c ∈ cs, Edit.ends c = false) →
    ∃ s, readlineIntoBuffer cbsize plen buffer cs = .more s
      ∧ Shows cbsize plen (Edit.keys (cbsize - 2) cs) s
  /-- Enter leaves the line in the buffer, and its length is returned. -/
  enter : ∀ front back, (∀ c ∈ front, Edit.ends c = false) →
    cs = front ++ 13 :: back ∨ cs = front ++ 10 :: back →
      ∃ s, readlineIntoBuffer cbsize plen buffer cs
          = .done ((Edit.keys (cbsize - 2) front).length : ℤ) s
        ∧ Memory.Holds s.buffer 0 (Edit.keys (cbsize - 2) front ++ [0])
  /-- `^C` discards it. -/
  interrupt : ∀ front back, (∀ c ∈ front, Edit.ends c = false) → cs = front ++ 3 :: back →
    ∃ s, readlineIntoBuffer cbsize plen buffer cs = .done (-1) s ∧ s.buffer 0 = 0

theorem reads (cbsize plen : ℕ) (buffer : ℕ → Byte) (cs : List Byte) :
  Reads cbsize plen buffer cs
  := by
  have hstart := shows_start cbsize plen buffer
  constructor
  case shows =>
    intro hcs
    obtain ⟨s, hkeys, hs⟩ := hstart.keys hcs []
    rw [List.append_nil] at hkeys
    exact ⟨s, hkeys, hs⟩
  case enter =>
    intro front back hfront hcs
    obtain ⟨c, hc, rfl⟩ : ∃ c, (c = 13 ∨ c = 10) ∧ cs = front ++ c :: back := by
      rcases hcs with hcs | hcs
      · exact ⟨13, .inl rfl, hcs⟩
      · exact ⟨10, .inr rfl, hcs⟩
    obtain ⟨s, hkeys, hs⟩ := hstart.keys hfront (c :: back)
    refine ⟨{ s with buffer := Function.update s.buffer s.p 0 }, ?_, ?_⟩
    · rw [readlineIntoBuffer, hkeys, ReadLine.keys, ReadLine.key, if_pos hc]
      simp only [hs.p]
      rfl
    · apply Memory.holds_append.mpr
      refine ⟨?_, ?_, Memory.holds_nil _ _⟩
      · apply hs.buffer.congr
        intro i _ hi
        apply Function.update_of_ne
        rw [hs.p]
        omega
      · rw [Nat.zero_add]
        have hp : s.p = (Edit.keys (cbsize - 2) front).length := hs.p
        simp only [← hp, Function.update_self]
  case interrupt =>
    rintro front back hfront rfl
    obtain ⟨s, hkeys, hs⟩ := hstart.keys hfront (3 :: back)
    refine ⟨{ s with buffer := Function.update s.buffer 0 0 }, ?_, by simp⟩
    rw [readlineIntoBuffer, hkeys]
    rfl

end ReadLine

end Cli
