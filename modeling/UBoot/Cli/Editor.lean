import UBoot.Cli.CreadLine

/-!
# What the editing keys mean

A line with a cursor is a pair of texts, the one before the cursor and the one after it.  With the
insert mode, the escape sequence that has begun and the lines entered so far, this is what the keys
of `cread_line` work on; `Shows` says how the variables of `cread_line` stand for it.

An escape sequence that is not one of the arrow keys is typed as it stands.  `cread_line` does that
for `ESC [ x`, but of `ESC x` it types only the first character.
-/

namespace Cli

/-- A line with a cursor, and what else the keys depend on. -/
structure Editor where
  before : List Byte
  after : List Byte
  insert : Bool
  pending : List Byte
  lines : List (List Byte)
  pos : ℕ

namespace Editor

variable (cfg : CreadConfig)

/-- The text of the line. -/
def line (e : Editor) : List Byte := e.before ++ e.after

/-- A character is typed. -/
def type (e : Editor) (c : Byte) : Editor :=
  if e.insert ∨ e.after = [] then
    if e.line.length < cfg.cbsize then { e with before := e.before ++ [c] } else e
  else { e with before := e.before ++ [c], after := e.after.tail }

def home (e : Editor) : Editor := { e with before := [], after := e.line }

def toEnd (e : Editor) : Editor := { e with before := e.line, after := [] }

def forward (e : Editor) : Editor :=
  { e with before := e.before ++ e.after.head?.toList, after := e.after.tail }

def back (e : Editor) : Editor :=
  { e with before := e.before.dropLast, after := e.before.getLast?.toList ++ e.after }

def delete (e : Editor) : Editor := { e with after := e.after.tail }

def backspace (e : Editor) : Editor := { e with before := e.before.dropLast }

def kill (e : Editor) : Editor := { e with after := [] }

def clear (e : Editor) : Editor := { e with before := [], after := [] }

/-- A line of the history replaces the text, if there is one in that direction. -/
def replace (e : Editor) (m : Hist.Move) : Editor :=
  match Hist.step e.lines e.pos m with
  | (none, pos) => { e with pos := pos }
  | (some text, pos) => { e with before := text, after := [], pos := pos }

/-- The completion is typed at the end of the line, if it fits. -/
def complete (e : Editor) : Editor :=
  if e.after ≠ [] then e
  else
    match cfg.complete (cstr e.before) with
    | none => e
    | some text =>
      if e.before.length + text.length < cfg.cbsize - 2 then
        { e with before := e.before ++ text }
      else e

/-- A key outside of an escape sequence. -/
def control (e : Editor) (c : Byte) : Editor :=
  if c = escape then { e with pending := [escape] }
  else if c = 1 then e.home
  else if c = 6 then e.forward
  else if c = 2 then e.back
  else if c = 4 then e.delete
  else if c = 11 then e.kill
  else if c = 5 then e.toEnd
  else if c = 15 then { e with insert := !e.insert }
  else if c = 24 ∨ c = 21 then e.clear
  else if c = 255 ∨ c = 127 ∨ c = 8 then e.backspace
  else if c = 16 then e.replace .prev
  else if c = 14 then e.replace .next
  else if c = 9 then e.complete cfg
  else e.type cfg c

/-- The escape sequence that has begun is typed as it stands. -/
def literally (e : Editor) (c : Byte) : Editor :=
  { (e.pending ++ [c]).foldl (type cfg) e with pending := [] }

/-- A key. -/
def key (e : Editor) (c : Byte) : Editor :=
  match e.pending with
  | [] => e.control cfg c
  | [_] => if c = Cread.bracket then { e with pending := e.pending ++ [c] } else e.literally cfg c
  | _ =>
    match Cread.arrow c with
    | some c => { e with pending := [] }.control cfg c
    | none => e.literally cfg c

/-- A line is begun with a text. -/
def start (text : List Byte) (lines : List (List Byte)) (pos : ℕ) : Editor :=
  ⟨text.take cfg.cbsize, [], true, [], lines, pos⟩

/-- The lines after this one has been entered. -/
def enter (e : Editor) : List (List Byte) :=
  if cstr e.line ≠ [] ∧ (cstr e.line).head? ≠ some Cread.histChar then e.lines ++ [cstr e.line]
  else e.lines

def input (e : Editor) : Cread.Input → Editor
  | .key c => e.key cfg c
  | .enter _ text => start cfg text e.enter 0
  | .interrupt _ text => start cfg text e.lines e.pos

end Editor

/-! ### The history -/

namespace Hist

/-- The history shows the line `pos` steps up; before the first line it is not yet in use. -/
def Shown (lines : List (List Byte)) (pos : ℕ) (h : Hist) : Prop :=
  At lines pos h ∨ Holds lines h ∧ lines = [] ∧ pos = 0 ∧ h.cur = -1

variable {lines : List (List Byte)} {pos : ℕ} {h : Hist}

theorem Shown.holds (hs : Shown lines pos h) :
  Holds lines h
  := by
  rcases hs with hat | ⟨hh, -⟩
  · exact hat.holds
  · exact hh

theorem Shown.move (hs : Shown lines pos h) (m : Move) :
  (h.move m).1 = (step lines pos m).1 ∧ Shown lines (step lines pos m).2 (h.move m).2
  := by
  rcases hs with hat | ⟨hh, rfl, rfl, hcur⟩
  · cases m with
    | prev => exact ⟨hat.prev.1, .inl hat.prev.2⟩
    | next => exact ⟨hat.next.1, .inl hat.next.2⟩
  · have hmove : h.move m = (none, h) := by
      cases m with
      | prev => rw [Hist.move, Hist.prev, if_pos (by omega)]
      | next => rw [Hist.move, Hist.next, if_pos (by omega)]
    have hstep : step [] 0 m = (none, 0) := by cases m <;> rfl
    rw [hmove, hstep]
    exact ⟨rfl, .inr ⟨hh, rfl, rfl, hcur⟩⟩

/-- What a call returns is a string of the ring, or empty. -/
theorem move_ring (h : Hist) (m : Move) :
  (h.move m).2.list = h.list
    ∧ ∀ text, (h.move m).1 = some text → text = [] ∨ ∃ i, text = h.list i
  := by
  cases m with
  | prev =>
    rw [Hist.move, Hist.prev]
    dsimp only
    split_ifs
    · exact ⟨rfl, fun _ htext => htext.elim⟩
    · exact ⟨rfl, fun _ htext => htext.elim⟩
    · exact ⟨rfl, fun text htext => .inr ⟨_, (Option.some.inj htext).symm⟩⟩
    · exact ⟨rfl, fun _ htext => htext.elim⟩
    · exact ⟨rfl, fun text htext => .inr ⟨_, (Option.some.inj htext).symm⟩⟩
  | next =>
    rw [Hist.move, Hist.next]
    dsimp only
    split_ifs
    · exact ⟨rfl, fun _ htext => htext.elim⟩
    · exact ⟨rfl, fun _ htext => htext.elim⟩
    · exact ⟨rfl, fun text htext => .inl (Option.some.inj htext).symm⟩
    · exact ⟨rfl, fun text htext => .inr ⟨_, (Option.some.inj htext).symm⟩⟩
    · exact ⟨rfl, fun text htext => .inl (Option.some.inj htext).symm⟩
    · exact ⟨rfl, fun text htext => .inr ⟨_, (Option.some.inj htext).symm⟩⟩

/-- The line below the newest one is shown when a line has been entered. -/
theorem Holds.shown (hh : Holds lines h) :
  Shown lines 0 { h with cur := h.addIdx }
  := .inl ⟨⟨hh.addIdx, hh.max, hh.list⟩, Nat.zero_le _, by simp only [hh.addIdx, Nat.sub_zero]⟩

end Hist

/-! ### The bounds -/

namespace Cread

variable {cfg : CreadConfig} {s s' : Cread} {e : Editor} {c : Byte}

/-- The cursor is in the line and the line in the buffer; what the history holds fits in it too. -/
structure Bounded (cfg : CreadConfig) (s : Cread) : Prop where
  num : s.num ≤ s.eolNum
  eolNum : s.eolNum ≤ cfg.cbsize
  hist : ∀ i, (s.hist.list i).length ≤ cfg.cbsize

theorem Bounded.addChar (h : Bounded cfg s) (insert : Bool) (c : Byte) :
  Bounded cfg (s.addChar cfg insert c)
  := by
  have hnum := h.num
  have heol := h.eolNum
  by_cases hgrow : insert ∨ s.num = s.eolNum
  · simp only [Cread.addChar, hgrow, true_and, if_true]
    split_ifs
    · exact h
    all_goals refine ⟨?_, ?_, h.hist⟩ <;> dsimp only <;> omega
  · have hlt : s.num < s.eolNum := lt_of_le_of_ne h.num fun heq => hgrow (.inr heq)
    simp only [Cread.addChar, hgrow, false_and, if_false]
    exact ⟨hlt, heol, h.hist⟩

theorem Bounded.addStr (h : Bounded cfg s) (insert : Bool) (str : List Byte) :
  Bounded cfg (s.addStr cfg insert str)
  := by
  induction str generalizing s with
  | nil => exact h
  | cons c str ih => exact ih (h.addChar insert c)

theorem Bounded.beginningOfLine (h : Bounded cfg s) :
  Bounded cfg s.beginningOfLine
  := ⟨Nat.zero_le _, h.eolNum, h.hist⟩

theorem Bounded.eraseToEol (h : Bounded cfg s) :
  Bounded cfg s.eraseToEol
  := by
  rw [Cread.eraseToEol]
  split_ifs
  · exact ⟨le_rfl, h.num.trans h.eolNum, h.hist⟩
  · exact h

theorem Bounded.refreshToEol (h : Bounded cfg s) :
  Bounded cfg s.refreshToEol
  := by
  rw [Cread.refreshToEol]
  split_ifs
  · exact ⟨le_rfl, h.eolNum, h.hist⟩
  · exact h

theorem Bounded.forwardChar (h : Bounded cfg s) :
  Bounded cfg s.forwardChar
  := by
  rw [Cread.forwardChar]
  split_ifs with hlt
  · exact ⟨hlt, h.eolNum, h.hist⟩
  · exact h

theorem Bounded.backChar (h : Bounded cfg s) :
  Bounded cfg s.backChar
  := by
  rw [Cread.backChar]
  split_ifs
  · exact ⟨(Nat.sub_le _ _).trans h.num, h.eolNum, h.hist⟩
  · exact h

theorem Bounded.deleteChar (h : Bounded cfg s) :
  Bounded cfg s.deleteChar
  := by
  rw [Cread.deleteChar]
  split_ifs with hlt
  · exact ⟨Nat.le_sub_one_of_lt hlt, (Nat.sub_le _ _).trans h.eolNum, h.hist⟩
  · exact h

theorem Bounded.backspace (h : Bounded cfg s) :
  Bounded cfg s.backspace
  := by
  rw [Cread.backspace]
  split_ifs
  · exact ⟨Nat.sub_le_sub_right h.num 1, (Nat.sub_le _ _).trans h.eolNum, h.hist⟩
  · exact h

theorem Bounded.recallLine (h : Bounded cfg s) (m : Hist.Move) :
  Bounded cfg (s.recallLine m)
  := by
  obtain ⟨hlist, hret⟩ := s.hist.move_ring m
  have hhist : ∀ i, ((s.hist.move m).2.list i).length ≤ cfg.cbsize := by
    rw [hlist]
    exact h.hist
  rw [Cread.recallLine]
  dsimp only
  split
  · exact ⟨h.num, h.eolNum, hhist⟩
  next text htext =>
    apply Bounded.refreshToEol
    refine ⟨?_, ?_, hhist⟩
    · rw [Cread.eraseToEol]
      split_ifs <;> exact Nat.zero_le _
    · rcases hret text htext with rfl | ⟨i, rfl⟩
      · exact Nat.zero_le _
      · exact h.hist i

theorem length_completion (h : Bounded cfg s) :
  s.num + (s.completion cfg).length ≤ cfg.cbsize
  := by
  have hle := h.num.trans h.eolNum
  rw [Cread.completion]
  split
  · exact hle
  · split_ifs
    · exact hle
    · omega

theorem Bounded.tabKey (h : Bounded cfg s) :
  Bounded cfg (s.tabKey cfg)
  := by
  rw [Cread.tabKey]
  split_ifs with hlt
  · exact h
  · have heq : s.eolNum = s.num := le_antisymm (not_lt.mp hlt) h.num
    refine ⟨Nat.add_le_add_right h.num _, ?_, h.hist⟩
    dsimp only
    rw [heq]
    exact length_completion h

theorem Bounded.ite {p : Prop} [Decidable p] (h : Bounded cfg s) (h' : Bounded cfg s') :
  Bounded cfg (if p then s else s')
  := by
  split_ifs
  · exact h
  · exact h'

theorem Bounded.control (h : Bounded cfg s) (c : Byte) :
  Bounded cfg (s.control cfg c)
  := by
  rw [Cread.control]
  apply Bounded.ite
  · exact ⟨h.num, h.eolNum, h.hist⟩
  apply Bounded.ite h.beginningOfLine
  apply Bounded.ite h.forwardChar
  apply Bounded.ite h.backChar
  apply Bounded.ite h.deleteChar
  apply Bounded.ite h.eraseToEol
  apply Bounded.ite h.refreshToEol
  apply Bounded.ite
  · exact ⟨h.num, h.eolNum, h.hist⟩
  apply Bounded.ite h.beginningOfLine.eraseToEol
  apply Bounded.ite h.backspace
  apply Bounded.ite (h.recallLine .prev)
  apply Bounded.ite (h.recallLine .next)
  apply Bounded.ite h.tabKey
  exact h.addChar s.insert c

theorem Bounded.key (h : Bounded cfg s) (c : Byte) :
  Bounded cfg (s.key cfg c)
  := by
  have hesc {s : Cread} (h : Bounded cfg s) (esc : List Byte) :
      Bounded cfg { s with escSave := esc } := ⟨h.num, h.eolNum, h.hist⟩
  rw [Cread.key]
  split_ifs
  · exact h.control c
  · exact hesc h _
  · exact hesc (h.addStr _ _) _
  · split
    · exact (hesc h _).control _
    · exact hesc (h.addStr _ _) _

theorem bounded_start {hist : Hist} (hhist : ∀ i, (hist.list i).length ≤ cfg.cbsize)
    (buf : ℕ → Byte) (text : List Byte) :
  Bounded cfg (start cfg buf text hist)
  := by
  apply Bounded.addStr
  exact ⟨le_rfl, Nat.zero_le _, hhist⟩

theorem length_cstr_le (text : List Byte) :
  (cstr text).length ≤ text.length
  := (List.takeWhile_sublist _).length_le

theorem Bounded.finish (h : Bounded cfg s) (i : ℕ) :
  (s.finish.hist.list i).length ≤ cfg.cbsize
  := by
  simp only [Cread.finish]
  split_ifs
  · simp only [Hist.add, Function.update_apply]
    split_ifs
    · apply (length_cstr_le _).trans
      rw [Memory.length_read]
      exact h.eolNum
    · exact h.hist i
  · exact h.hist i

theorem Bounded.step (h : Bounded cfg s) {a : Input} (hstep : s.step cfg a = some s') :
  Bounded cfg s'
  := by
  cases a with
  | key c =>
    rw [Cread.step] at hstep
    split_ifs at hstep
    obtain rfl := Option.some.inj hstep
    exact h.key c
  | enter buf text =>
    obtain rfl := Option.some.inj hstep
    exact bounded_start h.finish buf text
  | interrupt buf text =>
    rw [Cread.step] at hstep
    split_ifs at hstep
    obtain rfl := Option.some.inj hstep
    exact bounded_start h.hist buf text

/-! ### The contents -/

/-- The variables stand for the line with its cursor. -/
structure Shows (e : Editor) (s : Cread) : Prop where
  before : Memory.Holds s.buf 0 e.before
  after : Memory.Holds s.buf e.before.length e.after
  num : s.num = e.before.length
  eolNum : s.eolNum = e.before.length + e.after.length
  insert : s.insert = e.insert
  escSave : s.escSave = e.pending
  hist : Hist.Shown e.lines e.pos s.hist

theorem Shows.line (h : Shows e s) :
  Memory.Holds s.buf 0 e.line
  := by
  apply Memory.holds_append.mpr
  rw [Nat.zero_add]
  exact ⟨h.before, h.after⟩

theorem Shows.of_line (h : Shows e s) {before after : List Byte} {num : ℕ}
    (hline : before ++ after = e.line) (hnum : num = before.length) :
  Shows { e with before := before, after := after } { s with num := num }
  := by
  have hholds := h.line
  rw [← hline] at hholds
  obtain ⟨hbefore, hafter⟩ := Memory.holds_append.mp hholds
  rw [Nat.zero_add] at hafter
  refine ⟨hbefore, hafter, hnum, ?_, h.insert, h.escSave, h.hist⟩
  have hlen := congrArg List.length hline
  rw [Editor.line, List.length_append, List.length_append] at hlen
  rw [h.eolNum]
  exact hlen.symm

theorem Shows.home (h : Shows e s) :
  Shows e.home s.beginningOfLine
  := h.of_line rfl rfl

theorem Shows.lt_iff (h : Shows e s) :
  s.num < s.eolNum ↔ e.after ≠ []
  := by
  rw [h.num, h.eolNum, ← List.length_pos_iff]
  omega

theorem Shows.toEnd (h : Shows e s) :
  Shows e.toEnd s.refreshToEol
  := by
  have hend : Shows e.toEnd { s with num := s.eolNum } := by
    apply h.of_line (List.append_nil _)
    rw [h.eolNum, Editor.line, List.length_append]
  rw [Cread.refreshToEol]
  split_ifs with hlt
  · exact hend
  · have heq : s.eolNum = s.num := by
      have hnum := h.num
      have heol := h.eolNum
      omega
    have hs : { s with num := s.eolNum } = s := congrArg (fun n => { s with num := n }) heq
    rwa [hs] at hend

theorem Shows.kill (h : Shows e s) :
  Shows e.kill s.eraseToEol
  := by
  have hkill : Shows e.kill { s with eolNum := s.num } :=
    ⟨h.before, trivial, h.num, h.num, h.insert, h.escSave, h.hist⟩
  rw [Cread.eraseToEol]
  split_ifs with hlt
  · exact hkill
  · have heq : s.num = s.eolNum := by
      have hnum := h.num
      have heol := h.eolNum
      omega
    have hs : { s with eolNum := s.num } = s := congrArg (fun n => { s with eolNum := n }) heq
    rwa [hs] at hkill

theorem Shows.forward (h : Shows e s) :
  Shows e.forward s.forwardChar
  := by
  rw [Cread.forwardChar, Editor.forward]
  cases hafter : e.after with
  | nil =>
    rw [if_neg fun hlt => h.lt_iff.mp hlt hafter]
    apply h.of_line
    · simp [Editor.line, hafter]
    · simp [h.num]
  | cons c after =>
    rw [if_pos (h.lt_iff.mpr (by simp [hafter]))]
    apply h.of_line
    · simp [Editor.line, hafter]
    · simp [h.num]

theorem Shows.back (h : Shows e s) :
  Shows e.back s.backChar
  := by
  rw [Cread.backChar, Editor.back]
  rcases List.eq_nil_or_concat e.before with hbefore | ⟨before, c, hbefore⟩
  · rw [if_neg (by simp [h.num, hbefore])]
    apply h.of_line
    · simp [Editor.line, hbefore]
    · simp [h.num, hbefore]
  · rw [if_pos (by simp [h.num, hbefore])]
    apply h.of_line
    · simp [Editor.line, hbefore]
    · simp [h.num, hbefore]

theorem Shows.delete (h : Shows e s) :
  Shows e.delete s.deleteChar
  := by
  obtain ⟨hbefore, hafter, hnum, heol, hinsert, hesc, hhist⟩ := h
  rw [Cread.deleteChar, Editor.delete]
  cases hcs : e.after with
  | nil =>
    rw [if_neg (by simp [hnum, heol, hcs])]
    exact ⟨hbefore, trivial, hnum, by simp [heol, hcs], hinsert, hesc, hhist⟩
  | cons c after =>
    rw [hcs] at hafter heol
    rw [List.length_cons] at heol
    have hread : Memory.read s.buf (s.num + 1) (s.eolNum - s.num - 1) = after := by
      rw [hnum, heol, show e.before.length + (after.length + 1) - e.before.length - 1
        = after.length by omega]
      exact hafter.2.read_eq
    rw [if_pos (by omega), hread]
    refine ⟨hbefore.store _ (by omega), ?_, hnum, ?_, hinsert, hesc, hhist⟩
    · dsimp only [List.tail_cons]
      rw [hnum]
      exact Memory.holds_store _ _ _
    · simp only [heol, List.tail_cons]
      omega

theorem Shows.backspace (h : Shows e s) :
  Shows e.backspace s.backspace
  := by
  obtain ⟨hbefore, hafter, hnum, heol, hinsert, hesc, hhist⟩ := h
  rw [Cread.backspace, Editor.backspace]
  rcases List.eq_nil_or_concat e.before with hcs | ⟨before, c, hcs⟩
  · rw [if_neg (by simp [hnum, hcs])]
    exact ⟨by simp [hcs], by simpa [hcs] using hafter, by simp [hnum, hcs], by simp [heol, hcs],
      hinsert, hesc, hhist⟩
  · rw [List.concat_eq_append] at hcs
    have hlen : e.before.length = before.length + 1 := by simp [hcs]
    have hread : Memory.read s.buf s.num (s.eolNum - s.num) = e.after := by
      rw [hnum, heol, Nat.add_sub_cancel_left]
      exact hafter.read_eq
    have hlast : e.before.dropLast = before := by rw [hcs, List.dropLast_concat]
    rw [hcs] at hbefore
    obtain ⟨hbefore, -⟩ := Memory.holds_append.mp hbefore
    rw [if_pos (by omega), hread, hlast]
    have hnum' : s.num - 1 = before.length := by omega
    refine ⟨hbefore.store _ (by omega), ?_, hnum', ?_, hinsert, hesc, hhist⟩
    · dsimp only
      rw [hnum']
      exact Memory.holds_store _ _ _
    · dsimp only
      omega

theorem Shows.clear (h : Shows e s) :
  Shows e.clear s.beginningOfLine.eraseToEol
  := h.home.kill

theorem Shows.replace (h : Shows e s) (m : Hist.Move) :
  Shows (e.replace m) (s.recallLine m)
  := by
  obtain ⟨hret, hhist⟩ := h.hist.move m
  rw [Cread.recallLine, Editor.replace]
  cases hstep : Hist.step e.lines e.pos m with
  | mk ret pos =>
    rw [hstep] at hret hhist
    cases ret with
    | none =>
      simp only [hret]
      exact ⟨h.before, h.after, h.num, h.eolNum, h.insert, h.escSave, hhist⟩
    | some text =>
      simp only [hret]
      obtain ⟨-, -, hnum, -, hinsert, hesc, -⟩ := h.clear
      -- the text is written as the rest of an empty line, and the cursor put behind it
      have hstart : Shows { e with before := [], after := text, pos := pos }
          { s.beginningOfLine.eraseToEol with
            buf := Memory.store s.beginningOfLine.eraseToEol.buf 0 (text ++ [0])
            eolNum := text.length
            hist := (s.hist.move m).2 } := by
        refine ⟨trivial, ?_, hnum, ?_, hinsert, hesc, hhist⟩
        · exact (Memory.holds_append.mp (Memory.holds_store _ 0 (text ++ [0]))).1
        · exact (Nat.zero_add _).symm
      exact hstart.toEnd

/-- The text of the line as a string. -/
theorem Shows.cstr_eq (h : Shows e s) :
  cstr (Memory.read s.buf 0 s.num) = cstr e.before
  := by
  rw [h.num, h.before.read_eq]

theorem Shows.complete_eq (h : Shows e s) (hend : e.after = []) :
  e.complete cfg = { e with before := e.before ++ s.completion cfg }
  := by
  rw [Editor.complete, if_neg (not_not.mpr hend), Cread.completion, h.cstr_eq]
  cases cfg.complete (cstr e.before) with
  | none => simp only [List.append_nil]
  | some text =>
    dsimp only
    rw [h.num]
    split_ifs
    · omega
    · rfl
    · simp only [List.append_nil]
    · omega

theorem cstr_of_not_mem {text : List Byte} (h : 0 ∉ text) :
  cstr text = text
  := by
  apply List.takeWhile_eq_self_iff.mpr
  intro c hc
  simp only [decide_eq_true_eq]
  rintro rfl
  exact h hc

theorem Shows.complete (h : Shows e s)
    (hnul : s.num = s.eolNum → s.completion cfg = [] ∨ 0 ∉ Memory.read s.buf 0 s.num) :
  Shows (e.complete cfg) (s.tabKey cfg)
  := by
  rw [Cread.tabKey]
  by_cases hend : e.after = []
  · have heq : s.num = s.eolNum := by rw [h.num, h.eolNum, hend, List.length_nil, Nat.add_zero]
    rw [h.complete_eq hend, if_neg (by omega), h.cstr_eq]
    have hlen : s.num + (s.completion cfg).length = (e.before ++ s.completion cfg).length := by
      rw [List.length_append, h.num]
    refine ⟨?_, ?_, hlen, ?_, h.insert, h.escSave, h.hist⟩
    · have hbefore : Memory.Holds (Function.update s.buf s.num 0) 0 e.before :=
        h.before.update 0 (.inl (by rw [h.num, Nat.zero_add]))
      dsimp only
      split_ifs with htext
      · rw [htext, List.append_nil]
        exact hbefore
      · have hcstr : cstr e.before = e.before := by
          have hread := (hnul heq).resolve_left htext
          rw [h.num, h.before.read_eq] at hread
          exact cstr_of_not_mem hread
        rw [hcstr]
        apply Memory.holds_append.mpr
        constructor
        · exact hbefore.store _ (by omega)
        · rw [Nat.zero_add]
          exact (Memory.holds_append.mp (Memory.holds_store _ _ _)).1
    · dsimp only
      rw [hend]
      trivial
    · dsimp only
      rw [hend, ← heq, hlen]
      rfl
  · rw [if_pos (h.lt_iff.mpr hend), Editor.complete, if_pos hend]
    exact h

theorem holds_put {buf : ℕ → Byte} {text : List Byte} (h : Memory.Holds buf 0 text) (c : Byte) :
  Memory.Holds (Function.update buf text.length c) 0 (text ++ [c])
  := by
  apply Memory.holds_append.mpr
  refine ⟨h.update c (.inl (by rw [Nat.zero_add])), ?_, trivial⟩
  rw [Nat.zero_add, Function.update_self]

theorem Shows.type (h : Shows e s) (c : Byte) :
  Shows (e.type cfg c) (s.addChar cfg s.insert c)
  := by
  obtain ⟨hbefore, hafter, hnum, heol, hinsert, hesc, hhist⟩ := h
  have hline : e.line.length = s.eolNum := by rw [heol, Editor.line, List.length_append]
  have hend : s.num = s.eolNum ↔ e.after = [] := by
    rw [hnum, heol, ← List.length_eq_zero_iff]
    omega
  have hlen : (e.before ++ [c]).length = e.before.length + 1 := by simp
  simp only [Cread.addChar, Editor.type, hinsert, hend, hline]
  by_cases hgrow : e.insert ∨ e.after = []
  · simp only [hgrow, true_and, if_true]
    by_cases hfull : cfg.cbsize ≤ s.eolNum
    · rw [if_pos hfull, if_neg (not_lt.mpr hfull)]
      exact ⟨hbefore, hafter, hnum, heol, hinsert, hesc, hhist⟩
    · rw [if_neg hfull, if_pos (not_le.mp hfull)]
      have hread : Memory.read s.buf s.num (s.eolNum + 1 - s.num - 1) = e.after := by
        rw [hnum, heol, show e.before.length + e.after.length + 1 - e.before.length - 1
          = e.after.length by omega]
        exact hafter.read_eq
      rw [hread]
      refine ⟨?_, ?_, by rw [hlen, hnum], by dsimp only; omega, rfl, hesc, hhist⟩
      · dsimp only
        rw [hnum]
        apply holds_put
        split_ifs
        · exact hbefore.store _ (by omega)
        · exact hbefore
      · dsimp only
        rw [hnum, hlen]
        apply Memory.Holds.update _ _ (.inr (Nat.lt_succ_self _))
        split_ifs with hinsert
        · exact Memory.holds_store _ _ _
        · rw [hgrow.resolve_left hinsert]
          trivial
  · simp only [hgrow, false_and, if_false]
    have hnot : ¬ e.insert = true := fun hi => hgrow (.inl hi)
    rw [if_neg hnot]
    cases hcs : e.after with
    | nil => exact absurd (.inr hcs) hgrow
    | cons d after =>
      rw [hcs] at hafter heol
      rw [List.length_cons] at heol
      rw [List.tail_cons]
      refine ⟨?_, ?_, by rw [hlen, hnum], by dsimp only; omega, rfl, hesc, hhist⟩
      · dsimp only
        rw [hnum]
        exact holds_put hbefore c
      · dsimp only
        rw [hnum, hlen]
        exact hafter.2.update _ (.inr (Nat.lt_succ_self _))

theorem insert_addChar (insert : Bool) (s : Cread) (c : Byte) :
  (s.addChar cfg insert c).insert = s.insert
  := by
  rw [Cread.addChar]
  dsimp only
  split_ifs <;> rfl

theorem Shows.typeAll (h : Shows e s) (str : List Byte) :
  Shows (str.foldl (Editor.type cfg) e) (s.addStr cfg s.insert str)
  := by
  induction str generalizing e s with
  | nil => exact h
  | cons c str ih =>
    have htype : Shows (e.type cfg c) (s.addChar cfg s.insert c) := h.type c
    have hall := ih htype
    rw [insert_addChar] at hall
    exact hall

theorem Shows.ite {p : Prop} [Decidable p] {e' : Editor} (h : p → Shows e s) (h' : Shows e' s') :
  Shows (if p then e else e') (if p then s else s')
  := by
  by_cases hp : p
  · rw [if_pos hp, if_pos hp]
    exact h hp
  · rw [if_neg hp, if_neg hp]
    exact h'

/-- The completion would be written over the end of the string, not of the line. -/
def Cut (cfg : CreadConfig) (s : Cread) : Prop :=
  s.num = s.eolNum ∧ s.completion cfg ≠ [] ∧ 0 ∈ Memory.read s.buf 0 s.num

instance (cfg : CreadConfig) (s : Cread) : Decidable (s.Cut cfg) :=
  inferInstanceAs (Decidable (_ ∧ _))

theorem Shows.control (h : Shows e s) (c : Byte) (htab : c = 9 → ¬ s.Cut cfg) :
  Shows (e.control cfg c) (s.control cfg c)
  := by
  rw [Cread.control, Editor.control]
  apply Shows.ite
  · exact fun _ => ⟨h.before, h.after, h.num, h.eolNum, h.insert, rfl, h.hist⟩
  apply Shows.ite fun _ => h.home
  apply Shows.ite fun _ => h.forward
  apply Shows.ite fun _ => h.back
  apply Shows.ite fun _ => h.delete
  apply Shows.ite fun _ => h.kill
  apply Shows.ite fun _ => h.toEnd
  apply Shows.ite
  · exact fun _ =>
      ⟨h.before, h.after, h.num, h.eolNum, congrArg not h.insert, h.escSave, h.hist⟩
  apply Shows.ite fun _ => h.clear
  apply Shows.ite fun _ => h.backspace
  apply Shows.ite fun _ => h.replace .prev
  apply Shows.ite fun _ => h.replace .next
  apply Shows.ite _ (h.type c)
  intro hc
  apply h.complete
  intro heq
  by_contra hnot
  rw [not_or, not_not] at hnot
  exact htab hc ⟨heq, hnot⟩

/-- The steps after which the line is what the keys mean. -/
def Regular (cfg : CreadConfig) (s : Cread) : Input → Prop
  | .key c => (s.escSave.length = 1 → c = bracket) ∧ (s.escSave = [] → c = 9 → ¬ s.Cut cfg)
  | _ => True

theorem arrow_ne_tab {d : Byte} (h : arrow c = some d) :
  d ≠ 9
  := by
  simp only [arrow] at h
  split_ifs at h <;> obtain rfl := Option.some.inj h <;> decide

theorem Shows.key (h : Shows e s) (hreg : s.Regular cfg (.key c)) :
  Shows (e.key cfg c) (s.key cfg c)
  := by
  have hesc := h.escSave
  have hset {e : Editor} {s : Cread} (h : Shows e s) (esc : List Byte) :
      Shows { e with pending := esc } { s with escSave := esc } :=
    ⟨h.before, h.after, h.num, h.eolNum, h.insert, rfl, h.hist⟩
  rw [Cread.key, Editor.key]
  rcases hpending : e.pending with _ | ⟨d, _ | ⟨d', rest⟩⟩
  · rw [hpending] at hesc
    rw [if_pos hesc]
    exact h.control c (hreg.2 hesc)
  · rw [hpending] at hesc
    have hc := hreg.1 (by rw [hesc]; rfl)
    simp only [hesc, hc, List.length_singleton, if_true, reduceCtorEq, if_false]
    exact hset h _
  · rw [hpending] at hesc
    simp only [hesc, reduceCtorEq, if_false, List.length_cons, Nat.add_eq_right,
      Nat.add_eq_zero_iff, Nat.one_ne_zero, and_false]
    cases harrow : arrow c with
    | some c' => exact (hset h _).control c' fun heq => absurd heq (arrow_ne_tab harrow)
    | none =>
      dsimp only
      rw [Editor.literally, hpending]
      exact hset (h.typeAll _) _

/-- What is typed at the end of a line is cut at the limit. -/
theorem foldl_type (text : List Byte) (hend : e.after = []) :
  text.foldl (Editor.type cfg) e
    = { e with before := e.before ++ text.take (cfg.cbsize - e.before.length) }
  := by
  induction text generalizing e with
  | nil => simp only [List.foldl_nil, List.take_nil, List.append_nil]
  | cons c text ih =>
    have hlen : e.line.length = e.before.length := by rw [Editor.line, hend, List.append_nil]
    rw [List.foldl_cons]
    by_cases hlt : e.before.length < cfg.cbsize
    · have htype : e.type cfg c = { e with before := e.before ++ [c] } := by
        rw [Editor.type, if_pos (.inr hend), hlen, if_pos hlt]
      rw [htype, @ih { e with before := e.before ++ [c] } hend, List.append_assoc,
        List.length_append, List.length_singleton,
        show cfg.cbsize - e.before.length = cfg.cbsize - (e.before.length + 1) + 1 by omega]
      rfl
    · have htype : e.type cfg c = e := by
        rw [Editor.type, if_pos (.inr hend), hlen, if_neg hlt]
      rw [htype, ih hend, show cfg.cbsize - e.before.length = 0 by omega]
      rfl

theorem shows_start {hist : Hist} {lines : List (List Byte)} {pos : ℕ}
    (hhist : Hist.Shown lines pos hist) (buf : ℕ → Byte) (text : List Byte) :
  Shows (Editor.start cfg text lines pos) (start cfg buf text hist)
  := by
  have hstart : Shows ⟨[], [], true, [], lines, pos⟩
      ⟨Memory.store buf 0 (text ++ [0]), 0, 0, true, [], hist⟩ :=
    ⟨trivial, trivial, rfl, rfl, rfl, rfl, hhist⟩
  have htyped : Shows (text.foldl (Editor.type cfg) _) (start cfg buf text hist) :=
    hstart.typeAll text
  rwa [foldl_type text rfl] at htyped

theorem Shows.finish (h : Shows e s) :
  Hist.Shown e.enter 0 s.finish.hist
  := by
  have hline : cstr (Memory.read s.buf 0 s.eolNum) = cstr e.line := by
    have hlen : s.eolNum = e.line.length := by rw [h.eolNum, Editor.line, List.length_append]
    rw [hlen, h.line.read_eq]
  rw [Cread.finish, Editor.enter, hline]
  dsimp only
  split_ifs
  · exact (h.hist.holds.add _).shown
  · exact h.hist.holds.shown

theorem Shows.step {a : Input} (h : Shows e s) (hreg : s.Regular cfg a)
    (hstep : s.step cfg a = some s') :
  Shows (e.input cfg a) s'
  := by
  cases a with
  | key c =>
    rw [Cread.step] at hstep
    split_ifs at hstep
    obtain rfl := Option.some.inj hstep
    exact h.key hreg
  | enter buf text =>
    obtain rfl := Option.some.inj hstep
    exact shows_start h.finish buf text
  | interrupt buf text =>
    rw [Cread.step] at hstep
    split_ifs at hstep
    obtain rfl := Option.some.inj hstep
    exact shows_start h.hist buf text

/-! ### All sequences of keys -/

/-- The bounds hold, and the buffer and the cursor are those of the line with its cursor. -/
structure Agrees (cfg : CreadConfig) (e : Editor) (s : Cread) : Prop where
  num : s.num ≤ s.eolNum
  eolNum : s.eolNum ≤ cfg.cbsize
  buf : Memory.read s.buf 0 s.eolNum = e.line
  cursor : s.num = e.before.length

/-- What is expected of `cread_line` after a sequence of keys. -/
def Edits (cfg : CreadConfig) (buf : ℕ → Byte) (text : List Byte) (inputs : List Input) : Prop :=
  ∀ s ∈ Run.exec (step cfg) (start cfg buf text Hist.init) inputs,
    Agrees cfg (inputs.foldl (Editor.input cfg) (Editor.start cfg text [] 0)) s

theorem bounded_init (cfg : CreadConfig) (buf : ℕ → Byte) (text : List Byte) :
  Bounded cfg (start cfg buf text Hist.init)
  := bounded_start (fun _ => Nat.zero_le _) buf text

theorem shown_init :
  Hist.Shown [] 0 Hist.init
  := .inr ⟨Hist.holds_init, rfl, rfl, rfl⟩

theorem Bounded.exec (h : Bounded cfg s) {inputs : List Input}
    (hrun : Run.exec (Cread.step cfg) s inputs = some s') :
  Bounded cfg s'
  := by
  apply Run.exec_invariant_of_some _ h (Run.along_true s inputs) hrun
  intro s a s' h _ hstep
  exact h.step hstep

theorem Shows.exec (h : Shows e s) {inputs : List Input}
    (hreg : Run.Along (Cread.step cfg) (Regular cfg) s inputs)
    (hrun : Run.exec (Cread.step cfg) s inputs = some s') :
  Shows (inputs.foldl (Editor.input cfg) e) s'
  := by
  induction inputs generalizing e s with
  | nil =>
    obtain rfl := Option.some.inj hrun
    exact h
  | cons a inputs ih =>
    obtain ⟨s₁, hs₁, hrun⟩ := Option.bind_eq_some_iff.mp hrun
    exact ih (h.step hreg.1 hs₁) (hreg.2 s₁ hs₁) hrun

/--
The bounds hold after every sequence of keys, over any number of lines; the contents are right when
no `ESC` is followed by anything but `[`, and nothing is completed behind a typed NUL.
-/
theorem exec_edits (cfg : CreadConfig) (buf : ℕ → Byte) (text : List Byte) (inputs : List Input) :
  (∀ s ∈ Run.exec (step cfg) (start cfg buf text Hist.init) inputs,
      s.num ≤ s.eolNum ∧ s.eolNum ≤ cfg.cbsize)
    ∧ (Run.Along (step cfg) (Regular cfg) (start cfg buf text Hist.init) inputs →
      Edits cfg buf text inputs)
  := by
  have hbounded := bounded_init cfg buf text
  constructor
  · intro s hs
    have h := hbounded.exec hs
    exact ⟨h.num, h.eolNum⟩
  · intro hreg s hs
    have hb := hbounded.exec hs
    have h := (shows_start shown_init buf text).exec hreg hs
    refine ⟨hb.num, hb.eolNum, ?_, h.num⟩
    rw [h.eolNum, ← List.length_append]
    exact h.line.read_eq

/-- A small buffer, with one command to complete. -/
def sampleCread : CreadConfig where
  cbsize := 16
  complete text := if text = ascii "pri" then some (ascii "ntenv ") else none

instance (cfg : CreadConfig) (s : Cread) : (a : Input) → Decidable (s.Regular cfg a)
  | .key _ => inferInstanceAs (Decidable ((_ → _) ∧ (_ → _ → ¬ _)))
  | .enter _ _ => .isTrue trivial
  | .interrupt _ _ => .isTrue trivial

/-- A command is completed and entered, recalled with an arrow key, and a character deleted. -/
theorem exec_edits_recalled :
  Edits sampleCread (fun _ => 0) (ascii "pr")
    [.key 105, .key 9, .enter (fun _ => 0) [], .key 27, .key 91, .key 65, .key 2, .key 8]
  := (exec_edits _ _ _ _).2 (by decide +kernel)

theorem not_edits_of_read {buf : ℕ → Byte} {text line : List Byte} {inputs : List Input}
    (h : (Run.exec (step cfg) (start cfg buf text Hist.init) inputs).map
      (fun s => Memory.read s.buf 0 s.eolNum) = some line)
    (hne : line ≠ (inputs.foldl (Editor.input cfg) (Editor.start cfg text [] 0)).line) :
  ¬ Edits cfg buf text inputs
  := by
  intro hedits
  obtain ⟨s, hs, hline⟩ := Option.map_eq_some_iff.mp h
  apply hne
  rw [← hline]
  exact (hedits s hs).buf

/-- Of `ESC x` only the first character is typed; a completion behind a NUL misses the cursor. -/
theorem not_edits_escape :
  ¬ Edits sampleCread (fun _ => 0) [] [.key 27, .key 120]
    ∧ ¬ Edits sampleCread (fun _ => 0) (ascii "pri") [.key 0, .key 9]
  := by
  constructor
  · apply @not_edits_of_read _ _ _ [27]
    · decide +kernel
    · decide +kernel
  · apply @not_edits_of_read _ _ _ (ascii "printenv " ++ [0])
    · decide +kernel
    · decide +kernel

end Cread

end Cli
