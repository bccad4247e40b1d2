import UBoot.Lib.Memory
import UBoot.Lib.Run

/-!
# The string editor of the menus

`menu_string_edit` of `board/ACube/menu/string_edit.c` moves the text in its buffer for every
character that is typed or deleted.  It never looks at the size of the buffer, so that the text
stays in it only as long as nobody types more.
-/

namespace Menu

open Memory

/-- The size of `backup`. -/
def backupSize : ℕ := 1024

/-- `KEY_NEXT_OPTION`. -/
def keyNextOption : ℤ := 1

/-- `KEY_PREV_OPTION`. -/
def keyPrevOption : ℤ := 2

/-- `KEY_ABORT`. -/
def keyAbort : ℤ := 5

/-- `KEY_ACTIVATE`. -/
def keyActivate : ℤ := 6

/-- `KEY_DELETE`. -/
def keyDelete : ℤ := 7

/-- The variables of the editor, with the memory from `buffer` and from `backup` on, and what has
been returned. -/
structure StringEdit where
  buffer : ℕ → Byte
  bufferLength : ℕ
  cursorPos : ℕ
  backup : ℕ → Byte
  ret : Option Bool

namespace StringEdit

/-- The loop of `insert`: `n` bytes move up, from `s` on downwards. -/
def moveUp : ℕ → ℕ → (ℕ → Byte) → ℕ → Byte
  | 0, _, m => m
  | n + 1, s, m => moveUp n (s - 1) (Function.update m (s + 1) (m s))

/-- The loop of `backspace`: `n` bytes move down, to `s` and on. -/
def moveDown : ℕ → ℕ → (ℕ → Byte) → ℕ → Byte
  | 0, _, m => m
  | n + 1, s, m => moveDown n (s + 1) (Function.update m s (m (s + 1)))

/-- `backspace`. -/
def backspace (e : StringEdit) : StringEdit :=
  if e.cursorPos = 0 then e
  else if e.cursorPos = e.bufferLength then
    { e with
      bufferLength := e.bufferLength - 1
      cursorPos := e.cursorPos - 1
      buffer := Function.update e.buffer (e.bufferLength - 1) 0 }
  else
    { e with
      buffer := moveDown (e.bufferLength - e.cursorPos + 1) (e.cursorPos - 1) e.buffer
      cursorPos := e.cursorPos - 1
      bufferLength := e.bufferLength - 1 }

/-- `insert`. -/
def insert (e : StringEdit) (key : ℤ) : StringEdit :=
  let buffer := moveUp (e.bufferLength - e.cursorPos + 1) e.bufferLength e.buffer
  { e with
    buffer := Function.update buffer e.cursorPos (UInt8.ofNat key.toNat)
    cursorPos := e.cursorPos + 1
    bufferLength := e.bufferLength + 1 }

/-- The string in `backup`. -/
def saved (backup : ℕ → Byte) : List Byte := (read backup 0 backupSize).takeWhile (· ≠ 0)

/-- `menu_string_edit` up to the loop, for the string in the buffer. -/
def start (buffer backup : ℕ → Byte) (string : List Byte) : StringEdit where
  buffer := buffer
  bufferLength := string.length
  cursorPos := string.length
  backup := store backup 0 (string ++ [0])
  ret := none

/-- The loop of `menu_string_edit`, for one key. -/
def handle (e : StringEdit) (key : ℤ) : StringEdit :=
  if key = keyAbort then
    { e with buffer := store e.buffer 0 (saved e.backup ++ [0]), ret := some false }
  else if key = keyActivate then { e with ret := some true }
  else if key = keyNextOption then
    { e with
      cursorPos := if e.cursorPos + 1 > e.bufferLength then e.bufferLength else e.cursorPos + 1 }
  else if key = keyPrevOption then
    -- the cursor is set back when it becomes negative
    { e with cursorPos := if e.cursorPos = 0 then 0 else e.cursorPos - 1 }
  else if key = keyDelete then e.backspace
  else if 32 ≤ key ∧ key ≤ 127 then e.insert key
  else e

/-- One key, as long as the editor has not returned. -/
def step (e : StringEdit) (key : ℤ) : Option StringEdit :=
  if e.ret.isSome then none else some (e.handle key)

end StringEdit

/-! ### What it stands for -/

/-- A text with a cursor. -/
structure Line where
  before : List Byte
  after : List Byte
  ret : Option Bool

namespace Line

/-- The text. -/
def text (l : Line) : List Byte := l.before ++ l.after

/-- The text is edited from its end on. -/
def start (string : List Byte) : Line := ⟨string, [], none⟩

/-- What a key does to a text; `string` is the one from the beginning. -/
def handle (string : List Byte) (l : Line) (key : ℤ) : Line :=
  if key = keyAbort then ⟨string, [], some false⟩
  else if key = keyActivate then { l with ret := some true }
  else if key = keyNextOption then
    { l with before := l.before ++ l.after.head?.toList, after := l.after.tail }
  else if key = keyPrevOption then
    { l with before := l.before.dropLast, after := l.before.getLast?.toList ++ l.after }
  else if key = keyDelete then { l with before := l.before.dropLast }
  else if 32 ≤ key ∧ key ≤ 127 then { l with before := l.before ++ [UInt8.ofNat key.toNat] }
  else l

/-- One key, as long as the text is being edited. -/
def step (string : List Byte) (l : Line) (key : ℤ) : Option Line :=
  if l.ret.isSome then none else some (l.handle string key)

/-- A key types a character. -/
def Types (key : ℤ) : Prop := 32 ≤ key ∧ key ≤ 127

instance (key : ℤ) : Decidable (Types key) := inferInstanceAs (Decidable (_ ∧ _))

/-- There is room for what a key types. -/
def Room (size : ℕ) (l : Line) (key : ℤ) : Prop :=
  Types key → l.ret = none → l.text.length + 1 < size

instance (size : ℕ) (l : Line) (key : ℤ) : Decidable (Room size l key) :=
  inferInstanceAs (Decidable (_ → _ → _))

end Line

/-- The editor stands for a text: its buffer of `size` bytes holds it with a NUL, its length and the
cursor are right, and nothing is written behind the buffer and behind `backup`. -/
structure Shows (size : ℕ) (buffer₀ backup₀ : ℕ → Byte) (string : List Byte) (l : Line)
    (e : StringEdit) : Prop where
  ret : e.ret = l.ret
  text : Holds e.buffer 0 (l.text ++ [0])
  fits : l.text.length < size
  cursor : l.ret ≠ some false →
    e.bufferLength = l.text.length ∧ e.cursorPos = l.before.length
  aborted : l.ret = some false → l.text = string
  behind : ∀ a, size ≤ a → e.buffer a = buffer₀ a
  behindBackup : ∀ a, backupSize ≤ a → e.backup a = backup₀ a

variable {m : ℕ → Byte} {n p q size : ℕ} {before after string ℓ : List Byte} {c x : Byte}
  {buffer₀ backup₀ : ℕ → Byte} {l : Line} {e : StringEdit} {key : ℤ}

/-! ### The buffer -/

namespace StringEdit

/-- Each byte comes from the one before it. -/
theorem moveUp_apply (hn : n ≤ p + 1) (m : ℕ → Byte) (a : ℕ) :
  moveUp n p m a = if p + 1 < a + n ∧ a ≤ p + 1 then m (a - 1) else m a
  := by
  induction n generalizing p m with
  | zero => rw [moveUp, if_neg (by omega)]
  | succ n ih =>
    rw [moveUp]
    cases p with
    | zero =>
      have hzero : n = 0 := by omega
      rw [hzero, moveUp, Function.update_apply]
      by_cases ha : a = 1
      · rw [if_pos (by omega), if_pos (by omega), ha]
      · rw [if_neg (by omega), if_neg (by omega)]
    | succ p =>
      rw [Nat.add_sub_cancel, ih (by omega), Function.update_apply, Function.update_apply]
      split_ifs <;> first | rfl | omega | (apply congrArg m; omega)

/-- Each byte comes from the one after it. -/
theorem moveDown_apply (n p : ℕ) (m : ℕ → Byte) (a : ℕ) :
  moveDown n p m a = if p ≤ a ∧ a < p + n then m (a + 1) else m a
  := by
  induction n generalizing p m with
  | zero => rw [moveDown, if_neg (by omega)]
  | succ n ih =>
    rw [moveDown, ih, Function.update_apply, Function.update_apply]
    split_ifs <;> first | rfl | omega | (apply congrArg m; omega)

end StringEdit

/-- Bytes that were moved. -/
theorem holds_of_moved {m m' : ℕ → Byte} (h : Holds m p ℓ)
    (hmoved : ∀ i < ℓ.length, m' (q + i) = m (p + i)) :
  Holds m' q ℓ
  := by
  rw [holds_iff_getElem] at h ⊢
  intro i hi
  rw [hmoved i hi, h i hi]

/-- A character is typed at the cursor. -/
theorem holds_insert (h : Holds m 0 (before ++ (after ++ [0]))) (c : Byte) :
  Holds (Function.update
      (StringEdit.moveUp (after.length + 1) (before.length + after.length) m) before.length c) 0
    ((before ++ [c]) ++ (after ++ [0]))
  := by
  have hmove := StringEdit.moveUp_apply (n := after.length + 1)
    (p := before.length + after.length) (by omega) m
  rw [holds_append, Nat.zero_add] at h
  rw [List.append_assoc, holds_append, holds_append, Nat.zero_add]
  refine ⟨?_, ⟨Function.update_self .., trivial⟩, ?_⟩
  · apply h.1.congr
    intro a _ ha
    rw [Function.update_of_ne (by omega), hmove, if_neg (by omega)]
  · apply holds_of_moved h.2
    intro i hi
    rw [List.length_append, List.length_singleton] at hi
    rw [List.length_singleton, Function.update_of_ne (by omega), hmove, if_pos (by omega)]
    apply congrArg m
    omega

/-- The character before the cursor is deleted. -/
theorem holds_delete (h : Holds m 0 ((before ++ [x]) ++ (after ++ [0]))) :
  Holds (StringEdit.moveDown (after.length + 1) before.length m) 0 (before ++ (after ++ [0]))
  := by
  rw [List.append_assoc, holds_append, holds_append, Nat.zero_add, List.length_singleton] at h
  rw [holds_append, Nat.zero_add]
  constructor
  · apply h.1.congr
    intro a _ ha
    rw [StringEdit.moveDown_apply, if_neg (by omega)]
  · apply holds_of_moved h.2.2
    intro i hi
    rw [List.length_append, List.length_singleton] at hi
    rw [StringEdit.moveDown_apply, if_pos (by omega)]
    apply congrArg m
    omega

/-- `strcpy` from `backup`. -/
theorem saved_eq (h : Holds m 0 (string ++ [0])) (hstr : 0 ∉ string)
    (hlen : string.length < backupSize) :
  StringEdit.saved m = string
  := by
  apply h.takeWhile_read _ (by decide) hlen
  intro c hc
  have hne : c ≠ 0 := by
    rintro rfl
    exact hstr hc
  exact decide_eq_true hne

/-! ### One key -/

/-- While the text is edited, the length and the cursor are right. -/
theorem Shows.of_open_text (h : Shows size buffer₀ backup₀ string l e) (hopen : l.ret = none) :
  e.bufferLength = l.text.length ∧ e.cursorPos = l.before.length
  := by
  apply h.cursor
  rw [hopen]
  rintro ⟨⟩

theorem Shows.of_open (h : Shows size buffer₀ backup₀ string l e) (hopen : l.ret = none) :
  e.bufferLength = l.before.length + l.after.length ∧ e.cursorPos = l.before.length
  := by
  rw [← List.length_append]
  exact h.of_open_text hopen

theorem shows_insert (h : Shows size buffer₀ backup₀ string l e) (hopen : l.ret = none)
    (hroom : l.text.length + 1 < size) (key : ℤ) :
  Shows size buffer₀ backup₀ string { l with before := l.before ++ [UInt8.ofNat key.toNat] }
    (e.insert key)
  := by
  obtain ⟨hlen, hcursor⟩ := h.of_open hopen
  have htext := h.text
  rw [Line.text, List.length_append] at hroom
  have hrest : l.before.length + l.after.length - l.before.length = l.after.length := by omega
  rw [Line.text, List.append_assoc] at htext
  rw [StringEdit.insert, hlen, hcursor, hrest]
  constructor
  · exact h.ret
  · rw [Line.text, List.append_assoc]
    exact holds_insert htext _
  · rw [Line.text, List.length_append, List.length_append, List.length_singleton]
    dsimp only
    omega
  · intro _
    rw [Line.text, List.length_append, List.length_append, List.length_singleton]
    refine ⟨?_, rfl⟩
    dsimp only
    omega
  · intro hret
    rw [hopen] at hret
    cases hret
  · intro a ha
    dsimp only
    rw [Function.update_of_ne (by omega), StringEdit.moveUp_apply (by omega), if_neg (by omega)]
    exact h.behind a ha
  · exact h.behindBackup

/-- The cases of the function `backspace`. -/
theorem buffer_backspace (hlen : e.bufferLength = before.length + 1 + after.length)
    (hcursor : e.cursorPos = before.length + 1)
    (h : Holds e.buffer 0 ((before ++ [x]) ++ (after ++ [0]))) :
  Holds e.backspace.buffer 0 (before ++ (after ++ [0]))
    ∧ ∀ a, before.length + 1 + after.length < a → e.backspace.buffer a = e.buffer a
  := by
  rw [StringEdit.backspace, if_neg (by omega)]
  by_cases hend : e.cursorPos = e.bufferLength
  · have hnil : after = [] := List.length_eq_zero_iff.mp (by omega)
    rw [if_pos hend, hlen, hnil, List.length_nil, Nat.add_zero, Nat.add_sub_cancel]
    rw [List.append_assoc, holds_append, Nat.zero_add] at h
    constructor
    · rw [List.nil_append, holds_append, Nat.zero_add]
      refine ⟨?_, Function.update_self .., trivial⟩
      apply h.1.congr
      intro a _ ha
      exact Function.update_of_ne (by omega) _ _
    · intro a ha
      exact Function.update_of_ne (by omega) _ _
  · have hmoved : e.bufferLength - e.cursorPos + 1 = after.length + 1 := by omega
    rw [if_neg hend, hmoved, hcursor, Nat.add_sub_cancel]
    refine ⟨holds_delete h, ?_⟩
    intro a ha
    dsimp only
    rw [StringEdit.moveDown_apply, if_neg (by omega)]

theorem shows_backspace (h : Shows size buffer₀ backup₀ string l e) (hopen : l.ret = none) :
  Shows size buffer₀ backup₀ string { l with before := l.before.dropLast } e.backspace
  := by
  obtain ⟨hlen, hcursor⟩ := h.of_open hopen
  have htext := h.text
  have hfits := h.fits
  rw [Line.text, List.length_append] at hfits
  rw [Line.text, List.append_assoc] at htext
  obtain hnil | ⟨before, x, hbefore⟩ := List.eq_nil_or_concat l.before
  · have hzero : e.cursorPos = 0 := by rw [hcursor, hnil, List.length_nil]
    have hsame : { l with before := l.before.dropLast } = l := by
      rw [hnil, List.dropLast_nil, ← hnil]
    rw [StringEdit.backspace, if_pos hzero, hsame]
    exact h
  · rw [List.concat_eq_append] at hbefore
    rw [hbefore, List.length_append, List.length_singleton] at hlen hcursor hfits
    rw [hbefore] at htext
    obtain ⟨hbuffer, hbehind⟩ := buffer_backspace hlen hcursor htext
    have hnumbers : e.backspace.bufferLength = before.length + l.after.length
        ∧ e.backspace.cursorPos = before.length ∧ e.backspace.ret = e.ret
        ∧ e.backspace.backup = e.backup := by
      rw [StringEdit.backspace, if_neg (by omega)]
      split_ifs
      · exact ⟨by dsimp only; omega, by dsimp only; omega, rfl, rfl⟩
      · exact ⟨by dsimp only; omega, by dsimp only; omega, rfl, rfl⟩
    obtain ⟨hlen', hcursor', hret', hbackup'⟩ := hnumbers
    rw [hbefore, List.dropLast_concat]
    constructor
    · rw [hret']
      exact h.ret
    · rw [Line.text, List.append_assoc]
      exact hbuffer
    · rw [Line.text, List.length_append]
      dsimp only
      omega
    · intro _
      rw [Line.text, List.length_append]
      exact ⟨hlen', hcursor'⟩
    · intro hret
      rw [hopen] at hret
      cases hret
    · intro a ha
      rw [hbehind a (by omega)]
      exact h.behind a ha
    · rw [hbackup']
      exact h.behindBackup

/-- The cursor moves, and the text stays. -/
theorem shows_move (h : Shows size buffer₀ backup₀ string l e) (htext : before ++ after = l.text)
    {cursorPos : ℕ} (hcursor : cursorPos = before.length) :
  Shows size buffer₀ backup₀ string { l with before := before, after := after }
    { e with cursorPos := cursorPos }
  := by
  have hsame : Line.text { l with before := before, after := after } = l.text := htext
  constructor
  · exact h.ret
  · rw [hsame]
    exact h.text
  · rw [hsame]
    exact h.fits
  · intro hret
    rw [hsame]
    exact ⟨(h.cursor hret).1, hcursor⟩
  · rw [hsame]
    exact h.aborted
  · exact h.behind
  · exact h.behindBackup

theorem shows_abort (hstr : 0 ∉ string) (hbackup : string.length < backupSize)
    (hsize : string.length < size) (h : Shows size buffer₀ backup₀ string l e)
    (hsaved : Holds e.backup 0 (string ++ [0])) :
  Shows size buffer₀ backup₀ string ⟨string, [], some false⟩
    { e with buffer := store e.buffer 0 (StringEdit.saved e.backup ++ [0]), ret := some false }
  := by
  have htext : Line.text ⟨string, [], some false⟩ = string := List.append_nil string
  rw [saved_eq hsaved hstr hbackup]
  constructor
  · rfl
  · rw [htext]
    exact holds_store ..
  · rw [htext]
    exact hsize
  · exact fun hret => absurd rfl hret
  · exact fun _ => htext
  · intro a ha
    dsimp only
    rw [store_of_le]
    · exact h.behind a ha
    · rw [List.length_append, List.length_singleton]
      omega
  · exact h.behindBackup

theorem shows_handle (hstr : 0 ∉ string) (hbackup : string.length < backupSize)
    (hsize : string.length < size) (h : Shows size buffer₀ backup₀ string l e)
    (hsaved : Holds e.backup 0 (string ++ [0])) (hopen : l.ret = none)
    (hroom : Line.Room size l key) :
  Shows size buffer₀ backup₀ string (l.handle string key) (e.handle key)
  := by
  obtain ⟨hlen, hcursor⟩ := h.of_open hopen
  rw [StringEdit.handle, Line.handle]
  by_cases habort : key = keyAbort
  · rw [if_pos habort, if_pos habort]
    exact shows_abort hstr hbackup hsize h hsaved
  rw [if_neg habort, if_neg habort]
  by_cases hactivate : key = keyActivate
  · rw [if_pos hactivate, if_pos hactivate]
    exact ⟨rfl, h.text, h.fits, fun _ => h.of_open_text hopen, fun hret => (by cases hret),
      h.behind, h.behindBackup⟩
  rw [if_neg hactivate, if_neg hactivate]
  by_cases hnext : key = keyNextOption
  · rw [if_pos hnext, if_pos hnext]
    apply shows_move h
    · rw [List.append_assoc, Line.text]
      cases l.after <;> rfl
    · rw [hlen, hcursor, List.length_append]
      cases l.after with
      | nil => exact if_pos (Nat.lt_succ_self _)
      | cons c after => exact if_neg (by rw [List.length_cons]; omega)
  rw [if_neg hnext, if_neg hnext]
  by_cases hprev : key = keyPrevOption
  · rw [if_pos hprev, if_pos hprev]
    obtain hnil | ⟨before, x, hbefore⟩ := List.eq_nil_or_concat l.before
    · apply shows_move h
      · rw [hnil, Line.text, hnil]
        rfl
      · rw [hcursor, hnil]
        rfl
    · rw [List.concat_eq_append] at hbefore
      apply shows_move h
      · rw [hbefore, List.dropLast_concat, List.getLast?_concat, Line.text, hbefore,
          List.append_assoc]
        rfl
      · rw [hcursor, hbefore, List.dropLast_concat, List.length_append, List.length_singleton,
          if_neg (Nat.succ_ne_zero _), Nat.add_sub_cancel]
  rw [if_neg hprev, if_neg hprev]
  by_cases hdelete : key = keyDelete
  · rw [if_pos hdelete, if_pos hdelete]
    exact shows_backspace h hopen
  rw [if_neg hdelete, if_neg hdelete]
  by_cases htypes : 32 ≤ key ∧ key ≤ 127
  · rw [if_pos htypes, if_pos htypes]
    exact shows_insert h hopen (hroom htypes hopen) key
  · rw [if_neg htypes, if_neg htypes]
    exact h

/-- No key changes the copy of the string. -/
theorem backup_handle (e : StringEdit) (key : ℤ) :
  (e.handle key).backup = e.backup
  := by
  have hbackspace : e.backspace.backup = e.backup := by
    rw [StringEdit.backspace]
    split_ifs <;> rfl
  rw [StringEdit.handle]
  split_ifs <;> first | exact hbackspace | rfl

/-! ### Runs -/

theorem handle_of_types (htypes : Line.Types key) (string : List Byte) (l : Line) :
  l.handle string key = { l with before := l.before ++ [UInt8.ofNat key.toNat] }
  := by
  have hlarge : ∀ k : ℤ, k < 32 → key ≠ k := fun k hk heq => absurd htypes.1 (by omega)
  rw [Line.handle, if_neg (hlarge _ (by decide)), if_neg (hlarge _ (by decide)),
    if_neg (hlarge _ (by decide)), if_neg (hlarge _ (by decide)), if_neg (hlarge _ (by decide))]
  exact if_pos htypes

theorem shows_start (hbackup : string.length < backupSize) (hsize : string.length < size)
    (htext : Holds buffer₀ 0 (string ++ [0])) (backup₀ : ℕ → Byte) :
  Shows size buffer₀ backup₀ string (Line.start string)
    (StringEdit.start buffer₀ backup₀ string)
  := by
  have hline : (Line.start string).text = string := List.append_nil string
  constructor
  · rfl
  · rwa [hline]
  · rwa [hline]
  · intro _
    rw [hline]
    exact ⟨rfl, rfl⟩
  · exact fun _ => hline
  · exact fun _ _ => rfl
  · intro a ha
    apply store_of_le
    rw [List.length_append, List.length_singleton]
    omega

/-- The editor follows the text as long as there is room. -/
theorem exec_shows (hstr : 0 ∉ string) (hbackup : string.length < backupSize)
    (hsize : string.length < size) (htext : Holds buffer₀ 0 (string ++ [0])) (backup₀ : ℕ → Byte)
    {keys : List ℤ} (hroom : Run.Along (Line.step string) (Line.Room size) (Line.start string) keys)
    (hrun : Run.exec (Line.step string) (Line.start string) keys = some l) :
  ∃ e, Run.exec StringEdit.step (StringEdit.start buffer₀ backup₀ string) keys = some e
    ∧ Shows size buffer₀ backup₀ string l e
  := by
  have hstep : ∀ (l : Line) (e : StringEdit) (key : ℤ) (l' : Line),
      Shows size buffer₀ backup₀ string l e ∧ Holds e.backup 0 (string ++ [0]) →
      Line.Room size l key → l.step string key = some l' →
      ∃ e', e.step key = some e'
        ∧ Shows size buffer₀ backup₀ string l' e' ∧ Holds e'.backup 0 (string ++ [0]) := by
    rintro l e key l' ⟨hshows, hsaved⟩ hroom hnext
    rw [Line.step] at hnext
    cases hret : l.ret with
    | some ret =>
      rw [hret] at hnext
      cases hnext
    | none =>
      rw [hret] at hnext
      obtain rfl := Option.some.inj hnext
      refine ⟨e.handle key, ?_, shows_handle hstr hbackup hsize hshows hsaved hret hroom, ?_⟩
      · rw [StringEdit.step, hshows.ret, hret]
        rfl
      · rwa [backup_handle]
  obtain ⟨e, he, hshows, -⟩ := Run.exec_simulation hstep
    ⟨shows_start hbackup hsize htext backup₀, holds_store ..⟩ hroom hrun
  exact ⟨e, he, hshows⟩

/-- **The editor is a list with a cursor** in all states of a run if and only if the string fits
`backup`, and nothing is typed when the buffer is full. -/
theorem stringEdit_iff (hstr : 0 ∉ string) (hsize : string.length < size) (keys : List ℤ) :
  (∀ buffer₀ backup₀, Holds buffer₀ 0 (string ++ [0]) → ∀ as, as <+: keys → ∀ l,
      Run.exec (Line.step string) (Line.start string) as = some l →
      ∃ e, Run.exec StringEdit.step (StringEdit.start buffer₀ backup₀ string) as = some e
        ∧ Shows size buffer₀ backup₀ string l e)
    ↔ string.length < backupSize
      ∧ Run.Along (Line.step string) (Line.Room size) (Line.start string) keys
  := by
  constructor
  · intro hall
    have hbuffer : Holds (store (fun _ => 0) 0 (string ++ [0])) 0 (string ++ [0]) := holds_store ..
    constructor
    · by_contra hlong
      obtain ⟨e, he, hshows⟩ := hall _ (fun _ => 1) hbuffer [] List.nil_prefix _ rfl
      obtain rfl := Option.some.inj he
      have hone := hshows.behindBackup string.length (Nat.le_of_not_lt hlong)
      have hzero := (holds_append.mp (holds_store (fun _ => 1) 0 (string ++ [0]))).2.1
      rw [Nat.zero_add] at hzero
      have hne : (0 : Byte) ≠ 1 := by decide
      exact hne (hzero.symm.trans hone)
    · apply Run.along_of_forall
      rintro bs key cs l rfl hrun htypes hopen
      have hnext : Run.exec (Line.step string) (Line.start string) (bs ++ [key])
          = some (l.handle string key) := by
        rw [Run.exec_append, hrun, Option.bind_some, Run.exec, Line.step, hopen]
        rfl
      obtain ⟨e, -, hshows⟩ := hall _ (fun _ => 1) hbuffer (bs ++ [key])
        ⟨cs, List.append_assoc bs [key] cs⟩ _ hnext
      have hfits := hshows.fits
      rw [handle_of_types htypes, Line.text, List.length_append, List.length_append,
        List.length_singleton] at hfits
      rw [Line.text, List.length_append]
      dsimp only at hfits
      omega
  · rintro ⟨hbackup, hroom⟩ buffer₀ backup₀ htext as ⟨bs, rfl⟩ l hrun
    exact exec_shows hstr hbackup hsize htext backup₀ hroom.of_append hrun

/-- A letter is typed before the last one of `ab`, then the `a` is deleted, and all is given up. -/
theorem stringEdit_iff_abort :
  0 ∉ ascii "ab" ∧ ∀ buffer₀ backup₀, Holds buffer₀ 0 (ascii "ab" ++ [0]) → ∀ as, as <+: [2, 99, 2, 7, 5] → ∀ l,
    Run.exec (Line.step (ascii "ab")) (Line.start (ascii "ab")) as = some l →
    ∃ e, Run.exec StringEdit.step (StringEdit.start buffer₀ backup₀ (ascii "ab")) as = some e
      ∧ Shows 512 buffer₀ backup₀ (ascii "ab") l e
  := ⟨by decide, (stringEdit_iff (by decide) (by decide) _).mpr ⟨by decide, by decide⟩⟩

/-- The buffer of a menu item is full, and one more letter is typed. -/
theorem not_shows_full :
  ¬ ∀ (size : ℕ) (string : List Byte) (keys : List ℤ), 0 ∉ string → string.length < size →
    ∀ buffer₀ backup₀, Holds buffer₀ 0 (string ++ [0]) → ∀ l,
      Run.exec (Line.step string) (Line.start string) keys = some l →
      ∃ e, Run.exec StringEdit.step (StringEdit.start buffer₀ backup₀ string) keys = some e
        ∧ Shows size buffer₀ backup₀ string l e
  := by
  intro hall
  have hstr : 0 ∉ List.replicate 511 (97 : Byte) := by
    intro hmem
    have hne : (0 : Byte) ≠ 97 := by decide
    exact hne (List.eq_of_mem_replicate hmem)
  have hlen : (List.replicate 511 (97 : Byte)).length < 512 := by
    rw [List.length_replicate]
    decide
  have hrun : ∀ string, Run.exec (Line.step string) (Line.start string) [98]
      = some ((Line.start string).handle string 98) := fun _ => rfl
  obtain ⟨e, -, hshows⟩ := hall 512 _ [98] hstr hlen _ (fun _ => 0)
    (holds_store (fun _ => 0) 0 _) _ (hrun _)
  have hlong : ∀ string, ((Line.start string).handle string 98).text.length
      = string.length + 1 := by
    intro string
    rw [handle_of_types (by decide), Line.text, List.length_append, List.length_append,
      List.length_singleton]
    rfl
  have hfits := hshows.fits
  rw [hlong, List.length_replicate] at hfits
  exact absurd hfits (by decide)

end Menu
