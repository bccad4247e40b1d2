import UBoot.Cli.History
import UBoot.Cli.ParseLine
import UBoot.Lib.Run

/-!
# Editing a line

`cread_line` of `common/main.c`: a buffer with a cursor at `num` and an end at `eol_num`, and keys
that insert, overwrite, delete, move the cursor and recall lines of the history.  The arrow keys
send escape sequences, which are collected in `esc_save`.

What is wanted for a completion is a parameter; whether it fits is tested here as it is in
`cmd_auto_complete`.
-/

namespace Cli

/-- The variables of `cread_line`; `escSave` is the part of `esc_save` that is in use. -/
structure Cread where
  buf : ℕ → Byte
  num : ℕ
  eolNum : ℕ
  insert : Bool
  escSave : List Byte
  hist : Hist

/-- `CONFIG_SYS_CBSIZE`, and what `cmd_auto_complete` would add to a line. -/
structure CreadConfig where
  cbsize : ℕ
  complete : List Byte → Option (List Byte)

/-- The escape key. -/
def escape : Byte := 27

namespace Cread

variable (cfg : CreadConfig)

/-- `cread_add_char`; the limit `len` is `CONFIG_SYS_CBSIZE`. -/
def addChar (insert : Bool) (s : Cread) (c : Byte) : Cread :=
  let grows := insert ∨ s.num = s.eolNum
  if grows ∧ cfg.cbsize ≤ s.eolNum then s
  else
    let eolNum := if grows then s.eolNum + 1 else s.eolNum
    let buf :=
      if insert then
        -- the rest of the line moves up
        Memory.store s.buf (s.num + 1) (Memory.read s.buf s.num (eolNum - s.num - 1))
      else s.buf
    { s with buf := Function.update buf s.num c, num := s.num + 1, eolNum := eolNum }

/-- `cread_add_str`. -/
def addStr (insert : Bool) (s : Cread) (str : List Byte) : Cread :=
  str.foldl (addChar cfg insert) s

/-- `BEGINNING_OF_LINE`. -/
def beginningOfLine (s : Cread) : Cread := { s with num := 0 }

/-- `ERASE_TO_EOL`. -/
def eraseToEol (s : Cread) : Cread := if s.num < s.eolNum then { s with eolNum := s.num } else s

/-- `REFRESH_TO_EOL`. -/
def refreshToEol (s : Cread) : Cread := if s.num < s.eolNum then { s with num := s.eolNum } else s

/-- The case of `CTL_CH('f')`. -/
def forwardChar (s : Cread) : Cread := if s.num < s.eolNum then { s with num := s.num + 1 } else s

/-- The case of `CTL_CH('b')`. -/
def backChar (s : Cread) : Cread := if s.num ≠ 0 then { s with num := s.num - 1 } else s

/-- The case of `CTL_CH('d')`. -/
def deleteChar (s : Cread) : Cread :=
  if s.num < s.eolNum then
    { s with
      buf := Memory.store s.buf s.num (Memory.read s.buf (s.num + 1) (s.eolNum - s.num - 1))
      eolNum := s.eolNum - 1 }
  else s

/-- The case of the backspace keys. -/
def backspace (s : Cread) : Cread :=
  if s.num ≠ 0 then
    { s with
      buf := Memory.store s.buf (s.num - 1) (Memory.read s.buf s.num (s.eolNum - s.num))
      num := s.num - 1
      eolNum := s.eolNum - 1 }
  else s

/-- The cases of `CTL_CH('p')` and `CTL_CH('n')`. -/
def recallLine (s : Cread) (m : Hist.Move) : Cread :=
  let (hline, hist) := s.hist.move m
  match hline with
  | none => { s with hist := hist }
  | some hline =>
    let s := s.beginningOfLine.eraseToEol
    let s := { s with buf := Memory.store s.buf 0 (hline ++ [0]), hist := hist }
    { s with eolNum := hline.length }.refreshToEol

/-- What `cmd_auto_complete` writes behind the string in the buffer: nothing if it does not fit. -/
def completion (s : Cread) : List Byte :=
  match cfg.complete (cstr (Memory.read s.buf 0 s.num)) with
  | none => []
  | some text => if cfg.cbsize - 2 ≤ s.num + text.length then [] else text

/-- The case of the tab. -/
def tabKey (s : Cread) : Cread :=
  if s.num < s.eolNum then s
  else
    let buf := Function.update s.buf s.num 0
    let text := s.completion cfg
    let cnt := (cstr (Memory.read s.buf 0 s.num)).length
    { s with
      buf := if text = [] then buf else Memory.store buf cnt (text ++ [0])
      num := s.num + text.length
      eolNum := s.eolNum + text.length }

/-- The second `switch`. -/
def control (s : Cread) (c : Byte) : Cread :=
  if c = escape then { s with escSave := [escape] }
  else if c = 1 then s.beginningOfLine
  else if c = 6 then s.forwardChar
  else if c = 2 then s.backChar
  else if c = 4 then s.deleteChar
  else if c = 11 then s.eraseToEol
  else if c = 5 then s.refreshToEol
  else if c = 15 then { s with insert := !s.insert }
  else if c = 24 ∨ c = 21 then s.beginningOfLine.eraseToEol
  else if c = 255 ∨ c = 127 ∨ c = 8 then s.backspace
  else if c = 16 then s.recallLine .prev
  else if c = 14 then s.recallLine .next
  else if c = 9 then s.tabKey cfg
  else s.addChar cfg s.insert c

/-- The key that the last byte of an escape sequence stands for. -/
def arrow (c : Byte) : Option Byte :=
  if c = 68 then some 2
  else if c = 67 then some 6
  else if c = 72 then some 1
  else if c = 65 then some 16
  else if c = 66 then some 14
  else none

/-- `[`. -/
def bracket : Byte := 91

/-- One round of the loop, for a key that does not end the line. -/
def key (s : Cread) (c : Byte) : Cread :=
  if s.escSave = [] then s.control cfg c
  else if s.escSave.length = 1 then
    if c = bracket then { s with escSave := s.escSave ++ [c] }
    else { s.addStr cfg s.insert s.escSave with escSave := [] }
  else
    match arrow c with
    | some c => { s with escSave := [] }.control cfg c
    | none => { s.addStr cfg s.insert (s.escSave ++ [c]) with escSave := [] }

/-- The start of `cread_line`, with the string `text` in the buffer. -/
def start (buf : ℕ → Byte) (text : List Byte) (hist : Hist) : Cread :=
  addStr cfg true ⟨Memory.store buf 0 (text ++ [0]), 0, 0, true, [], hist⟩ text

/-- `CREAD_HIST_CHAR`. -/
def histChar : Byte := 33

/-- What follows the loop when enter has been pressed: the string is added to the history. -/
def finish (s : Cread) : Cread :=
  let line := cstr (Memory.read s.buf 0 s.eolNum)
  let hist := if line ≠ [] ∧ line.head? ≠ some histChar then s.hist.add line else s.hist
  { s with buf := Function.update s.buf s.eolNum 0, hist := { hist with cur := hist.addIdx } }

/-- A key, and for one that ends the call of `cread_line` also what the next call begins with. -/
inductive Input where
  | key (c : Byte)
  | enter (buf : ℕ → Byte) (text : List Byte)
  | interrupt (buf : ℕ → Byte) (text : List Byte)

/--
The calls of `cread_line` as a machine.  `^C` ends one only where it reaches the second `switch`.
-/
def step (s : Cread) : Input → Option Cread
  | .key c => if c = 10 ∨ c = 13 ∨ c = 3 ∧ s.escSave = [] then none else some (s.key cfg c)
  | .enter buf text => some (start cfg buf text s.finish.hist)
  | .interrupt buf text => if s.escSave = [] then some (start cfg buf text s.hist) else none

end Cread

end Cli
