import UBoot.Lib.Logged
import UBoot.Lib.Memory
import UBoot.Lib.Ring
import Mathlib.Data.List.GetD

/-!
# The USB keyboard

`usb_kbd_irq_worker` and `usb_kbd_getc` of `common/usb_kbd.c`.  A report lists the keys that are
down.  The keys that are not in the report before are translated, and their characters are put
into a ring, from which `usb_kbd_getc` takes them.

A report is right if every new key is pressed once and queues what `pressChar` says, and if the
maps are read inside their bounds.  Two kinds of reports are not right.  The flag for Ctrl is set
and cleared for some values of the modifier byte only, and the maps for the digits end before Caps
Lock, for which they are read.
-/

namespace UsbKbd

open Logged

/-! ### The data -/

/-- A report of the boot protocol: the modifiers, a reserved byte, and six keys. -/
abbrev Report := Fin 8 → Byte

def slots : List (Fin 8) := [2, 3, 4, 5, 6, 7]

def Report.keys (r : Report) : List Byte := slots.map r

def numLock : Byte := 0x53
def capsLock : Byte := 0x39
def scrollLock : Byte := 0x47

def leftCntr : Byte := 0x01
def leftShift : Byte := 0x02
def rightCntr : Byte := 0x10
def rightShift : Byte := 0x20

/-- `REPEAT_DELAY`. -/
def maxDelay : ℕ := 10

def usbKbdBufferLen : ℕ := 0x20

def usbKbdNumkey : List Byte :=
  ascii "1234567890" ++ [0x0D, 0x1B, 0x08, 0x09] ++ ascii " -=[]\\#;'`,./"

def usbKbdNumkeyShifted : List Byte :=
  ascii "!@#$%^&*()" ++ [0x0D, 0x1B, 0x08, 0x09] ++ ascii " _+\x7b\x7d|~:\"~<>?"

def usbKbdNumKeypad : List Byte :=
  ascii "/*-+" ++ [0x0D] ++ ascii "1234567890." ++ [0, 0, 0] ++ ascii "="

def usbKbdArrow : List Byte := [0x6, 0x2, 0xE, 0x10]

def usbKbdNumlock : Byte := 0x01
def usbKbdCapslock : Byte := 0x02
def usbKbdScrolllock : Byte := 0x04
def usbKbdCtrl : Byte := 0x08
def usbKbdLedmask : Byte := usbKbdNumlock ||| usbKbdCapslock ||| usbKbdScrolllock

/-- `struct usb_kbd_pdata`; the report that is handled is apart from it. -/
structure Pdata where
  repeatDelay : ℕ
  usbInPointer : ℕ
  usbOutPointer : ℕ
  usbKbdBuffer : ℕ → Byte
  old : Report
  flags : Byte

/-- The data are cleared when a keyboard is found. -/
def Pdata.clear : Pdata := ⟨0, 0, 0, fun _ => 0, fun _ => 0, 0⟩

/-- What happens when a report is handled: a map is read, a key is pressed or repeated, and a
character is put into the ring unless it is full. -/
inductive Event
  | lookup (map : List Byte) (i : ℕ)
  | press (scancode : Byte)
  | again (scancode : Byte)
  | put (c : Byte)
  | setenv (name value : String)
  | consoleChanged
  | setled (leds : Byte)
  deriving DecidableEq

/-! ### The functions -/

/-- Puts a character in the ring; the pointers are unsigned. -/
def usbKbdPutQueue (data : Pdata) (c : Byte) : LogM Event Pdata := do
  note (.put c)
  if data.usbInPointer = usbKbdBufferLen - 1 then
    if data.usbOutPointer = 0 then pure data
    else pure { data with
      usbInPointer := 0
      usbKbdBuffer := Function.update data.usbKbdBuffer 0 c }
  else if data.usbInPointer = (data.usbOutPointer + (2 ^ 32 - 1)) % 2 ^ 32 then pure data
  else pure { data with
    usbInPointer := data.usbInPointer + 1
    usbKbdBuffer := Function.update data.usbKbdBuffer (data.usbInPointer + 1) c }

def capitalMask : Byte := 0x20

def shifted (modifier : Byte) : Prop := modifier &&& (leftShift ||| rightShift) ≠ 0

instance decidableShifted (modifier : Byte) : Decidable (shifted modifier) :=
  inferInstanceAs (Decidable (_ ≠ _))

/-- The map with the character of a key, and the index of the character. -/
def mapOf (scancode modifier : Byte) : Option (List Byte × ℕ) :=
  if scancode > 0x1d ∧ scancode < 0x3a then
    some (if shifted modifier then usbKbdNumkeyShifted else usbKbdNumkey, scancode.toNat - 0x1e)
  else if scancode ≥ 0x4f ∧ scancode ≤ 0x52 then some (usbKbdArrow, scancode.toNat - 0x4f)
  else if scancode ≥ 0x54 ∧ scancode ≤ 0x67 then some (usbKbdNumKeypad, scancode.toNat - 0x54)
  else none

/-- The character of a letter. -/
def letter (capital : Bool) (scancode modifier : Byte) : Byte :=
  let keycode := scancode - 4 + 0x61
  let keycode := if capital then keycode &&& ~~~capitalMask else keycode
  if shifted modifier then
    if keycode &&& capitalMask ≠ 0 then keycode &&& ~~~capitalMask else keycode ||| capitalMask
  else keycode

/-- The character of a key.  What is behind a map is `stray`. -/
def keycode (stray : Byte) (capital ctrl : Bool) (scancode modifier : Byte) : Byte :=
  if ctrl then scancode - 0x3
  else if scancode > 3 ∧ scancode ≤ 0x1d then letter capital scancode modifier
  else (mapOf scancode modifier).elim 0 fun p => p.1.getD p.2 stray

/-- The keys of the menu, with the characters that they queue. -/
def menuKey (scancode : Byte) : Option (Option Byte) :=
  if scancode = 41 then some (some 5)
  else if scancode = 40 then some (some 13)
  else if scancode = 88 then some (some 13)
  else if scancode = 79 then some (some 1)
  else if scancode = 80 then some (some 2)
  else if scancode = 81 then some (some 3)
  else if scancode = 82 then some (some 4)
  else if scancode = 75 then some (some 4)
  else if scancode = 78 then some (some 3)
  else if scancode = 69 then some none
  else none

/-- The flag of a lock key. -/
def lockKey (scancode : Byte) : Option Byte :=
  if scancode = numLock then some usbKbdNumlock
  else if scancode = capsLock then some usbKbdCapslock
  else if scancode = scrollLock then some usbKbdScrolllock
  else none

section Source

variable (stray : Byte)

/-- A character is queued if there is one. -/
def queueSome (data : Pdata) (c : Option Byte) : LogM Event Pdata :=
  c.elim (pure data) (usbKbdPutQueue data)

/-- The map with the character of a key is read. -/
def lookMap (scancode modifier : Byte) : LogM Event Unit :=
  (mapOf scancode modifier).elim (pure ()) fun p => note (.lookup p.1 p.2)

/-- The console is switched by one of the keys of the menu. -/
def switchConsole (scancode modifier : Byte) : LogM Event Unit :=
  if scancode = 69 ∧ modifier = 1 then do
    note (.setenv "stdin" "usbkbd")
    note (.setenv "stdout" "vga")
    note .consoleChanged
  else pure ()

/-- The last part of `usb_kbd_translate` for a key that is pressed; `c` is its character. -/
def pressed (data : Pdata) (scancode modifier c : Byte) : LogM Event (Bool × Pdata) :=
  (menuKey scancode).elim
    ((lockKey scancode).elim
      (do
        let data ← queueSome data (if c ≠ 0 then some c else none)
        pure (false, data))
      fun lock => pure (true, { data with flags := data.flags ^^^ lock }))
    fun queued => do
      let data ← queueSome data queued
      switchConsole scancode modifier
      pure (false, data)

/-- Translates a scancode; `up` is 0 for a key that is released, 1 for one that is pressed, and 2
for one that is still pressed. -/
def usbKbdTranslate (data : Pdata) (scancode modifier : Byte) (up : ℕ) :
    LogM Event (Bool × Pdata) :=
  if up = 0 then pure (false, { data with repeatDelay := 0 })
  else if up = 2 ∧ data.repeatDelay + 1 < maxDelay then
    pure (false, { data with repeatDelay := data.repeatDelay + 1 })
  else do
    let data := if up = 2 then { data with repeatDelay := maxDelay } else data
    note (if up = 1 then .press scancode else .again scancode)
    lookMap scancode modifier
    let c := keycode stray (data.flags &&& usbKbdCapslock ≠ 0) (data.flags &&& usbKbdCtrl ≠ 0)
      scancode modifier
    if up = 1 then pressed data scancode modifier c
    else do
      let data ← queueSome data (if c ≠ 0 then some c else none)
      pure (false, data)

/-- A key of the one report is looked for in the other one. -/
def usbKbdServiceKey (new : Report) (data : Pdata) (i : Fin 8) (up : ℕ) :
    LogM Event (Bool × Pdata) :=
  let here := if up ≠ 0 then new else data.old
  let there := if up ≠ 0 then data.old else new
  if here i > 3 ∧ here i ∉ there.keys then usbKbdTranslate stray data (here i) (new 0) up
  else pure (false, data)

/-- The loop over the keys. -/
def serviceKeys (new : Report) : List (Fin 8) → Bool → Pdata → LogM Event (Bool × Pdata)
  | [], res, data => pure (res, data)
  | i :: is, res, data => do
    let released ← usbKbdServiceKey stray new data i 0
    let pressed ← usbKbdServiceKey stray new released.2 i 1
    serviceKeys new is (res || released.1 || pressed.1) pressed.2

/-- The first key is still pressed. -/
def stillPressed (new : Report) (data : Pdata) : LogM Event (Bool × Pdata) :=
  if new 2 > 3 ∧ data.old 2 = new 2 then usbKbdTranslate stray data (new 2) (new 0) 2
  else pure (false, data)

/-- The lamps are set if a lock key was pressed. -/
def setled (res : Bool) (data : Pdata) : LogM Event Unit :=
  if res then note (.setled (data.flags &&& usbKbdLedmask)) else pure ()

/-- The flag for Ctrl is set or cleared, or is left as it is. -/
def ctrlFlag (flags modifier : Byte) : Byte :=
  if modifier = 0 then flags &&& ~~~usbKbdCtrl
  else if modifier = leftCntr ∨ modifier = rightCntr then flags ||| usbKbdCtrl
  else flags

/-- Handles a report. -/
def usbKbdIrqWorker (data : Pdata) (new : Report) : LogM Event Pdata := do
  let data := { data with flags := ctrlFlag data.flags (new 0) }
  let keys ← serviceKeys stray new slots false data
  let held ← stillPressed stray new keys.2
  setled (keys.1 || held.1) held.2
  pure { held.2 with old := new }

/-- What a log of the keyboard contains: a report that was handled, with the data before, the events
and the data afterwards, or a character that `usb_kbd_getc` returned. -/
inductive Entry
  | worked (before : Pdata) (new : Report) (events : List Event) (after : Pdata)
  | got (c : Byte)

/-- A report is handled. -/
def work (data : Pdata) (new : Report) : List Entry × Pdata :=
  let r := usbKbdIrqWorker stray data new []
  ([.worked data new r.2 r.1], r.1)

/-- Polls for a report; it is handled if it differs from the one before. -/
def usbKbdPollForEvent (data : Pdata) (new : Report) : List Entry × Pdata :=
  if data.old ≠ new then work stray data new else ([], data)

/-- The next character is taken from the ring. -/
def takeChar (data : Pdata) : List Entry × Pdata :=
  let out := if data.usbOutPointer = usbKbdBufferLen - 1 then 0 else data.usbOutPointer + 1
  ([.got (data.usbKbdBuffer out)], { data with usbOutPointer := out })

/-- Returns the next character, after as many polls as are needed to have one; `polls` are the
reports that they get.  When these do not suffice, it still polls. -/
def usbKbdGetc : List Report → Pdata → List Entry × Pdata
  | [], data =>
    if data.usbInPointer = data.usbOutPointer then ([], data) else takeChar data
  | new :: polls, data =>
    if data.usbInPointer = data.usbOutPointer then
      let p := usbKbdPollForEvent stray data new
      let q := usbKbdGetc polls p.2
      (p.1 ++ q.1, q.2)
    else takeChar data

/-- A report arrives, or `usb_kbd_getc` is called. -/
inductive Action
  | report (new : Report)
  | getc (polls : List Report)

def act (data : Pdata) : Action → List Entry × Pdata
  | .report new => work stray data new
  | .getc polls => usbKbdGetc stray polls data

/-- The log of some actions, and the data afterwards. -/
def run : List Action → Pdata → List Entry × Pdata
  | [], data => ([], data)
  | a :: as, data =>
    let p := act stray data a
    let q := run as p.2
    (p.1 ++ q.1, q.2)

end Source

/-! ### What a report should do -/

/-- The keys of a report that are not in the report before. -/
def newKeys (old new : Report) : List Byte :=
  new.keys.filter fun k => k > 3 ∧ k ∉ old.keys

/-- What a key queues when it is pressed. -/
def charOf (stray : Byte) (capital ctrl : Bool) (scancode modifier : Byte) : Option Byte :=
  (menuKey scancode).getD ((lockKey scancode).elim
    (if keycode stray capital ctrl scancode modifier ≠ 0 then
      some (keycode stray capital ctrl scancode modifier) else none)
    fun _ => none)

/-- The modifiers contain a Ctrl key. -/
def ctrlOf (modifier : Byte) : Bool := modifier &&& (leftCntr ||| rightCntr) ≠ 0

/-- What a key should queue: this depends on the key, the modifiers of the report and the locks. -/
def pressChar (scancode modifier locks : Byte) : Option Byte :=
  charOf 0 (locks &&& usbKbdCapslock ≠ 0) (ctrlOf modifier) scancode modifier

/-- The event is not for a character or a key, and a map is read inside its bounds. -/
def Event.Silent : Event → Prop
  | .lookup map i => i < map.length
  | .setenv _ _ => True
  | .consoleChanged => True
  | _ => False

/-- Some keys are pressed one after the other, each of them once.  Each queues its character, if it
has one, and a lock key changes the locks. -/
inductive Presses (modifier : Byte) : Byte → List Byte → List Event → Byte → Prop
  | nil (locks : Byte) : Presses modifier locks [] [] locks
  | cons {locks locks' k : Byte} {ks : List Byte} {look console events : List Event}
    (hlook : ∀ e ∈ look, e.Silent) (hconsole : ∀ e ∈ console, e.Silent)
    (h : Presses modifier (locks ^^^ (lockKey k).getD 0) ks events locks') :
    Presses modifier locks (k :: ks)
      (.press k :: (look ++ (pressChar k modifier locks).toList.map .put ++ console ++ events))
      locks'

/-- The events for a report are right: every new key is pressed once, and what else happens reads
the maps inside their bounds. -/
structure Right (before : Pdata) (new : Report) (events : List Event) (after : Pdata) : Prop where
  presses : ∃ presses others, events = presses ++ others
    ∧ Presses (new 0) (before.flags &&& usbKbdLedmask) (newKeys before.old new) presses
      (after.flags &&& usbKbdLedmask)
    ∧ ∀ k, Event.press k ∉ others
  once : ∀ k, events.count (.press k) = if k ∈ newKeys before.old new then 1 else 0
  inside : ∀ map i, Event.lookup map i ∈ events → i < map.length

/-- No key is twice in a report. -/
def Distinct (new : Report) : Prop := (new.keys.filter fun k => k > 3).Nodup

/-- A character is dropped if 31 characters wait. -/
def push (queue : List Byte) (c : Byte) : List Byte :=
  if queue.length < usbKbdBufferLen - 1 then queue ++ [c] else queue

def Event.queue (queue : List Byte) : Event → List Byte
  | .put c => push queue c
  | _ => queue

/-- What the keyboard is for: the characters that wait, the last report, and the locks. -/
structure Spec where
  queue : List Byte
  old : Report
  locks : Byte

/-- The log is one of a queue: what is put into it comes out in the same order.  Each report is
handled with the one before it as the old one. -/
inductive Replays : Spec → List Entry → Spec → Prop
  | nil (σ : Spec) : Replays σ [] σ
  | worked {σ τ : Spec} {before after : Pdata} {new : Report} {events : List Event}
    {log : List Entry} (hold : before.old = σ.old)
    (hlocks : before.flags &&& usbKbdLedmask = σ.locks)
    (h : Replays ⟨events.foldl Event.queue σ.queue, new, after.flags &&& usbKbdLedmask⟩ log τ) :
    Replays σ (.worked before new events after :: log) τ
  | got {queue : List Byte} {old : Report} {locks c : Byte} {τ : Spec} {log : List Entry}
    (h : Replays ⟨queue, old, locks⟩ log τ) :
    Replays ⟨c :: queue, old, locks⟩ (.got c :: log) τ

/-- The key is translated by the maps. -/
def Translated (scancode : Byte) : Prop := menuKey scancode = none ∧ lockKey scancode = none

/-- The flag for Ctrl is known from the report, or it was right before, or it is not used. -/
def CtrlRight (data : Pdata) (new : Report) : Prop :=
  new 0 = 0 ∨ new 0 = leftCntr ∨ new 0 = rightCntr
    ∨ (data.flags &&& usbKbdCtrl ≠ 0 ↔ ctrlOf (new 0) = true)
    ∨ ∀ k ∈ newKeys data.old new, ¬ Translated k

/-- Caps Lock is translated: it is pressed, or it is held long enough while no key is released. -/
def CapsLooked (data : Pdata) (new : Report) : Prop :=
  capsLock ∈ newKeys data.old new
    ∨ (new 2 = capsLock ∧ data.old 2 = capsLock ∧ maxDelay ≤ data.repeatDelay + 1
      ∧ ∀ k ∈ data.old.keys, k > 3 → k ∈ new.keys)

/-! ### The ring -/

/-- The ring contains a queue: it begins behind the cell that was taken last. -/
structure Holds (data : Pdata) (queue : List Byte) : Prop where
  out : data.usbOutPointer < usbKbdBufferLen
  length : queue.length < usbKbdBufferLen
  inPointer : data.usbInPointer = (data.usbOutPointer + queue.length) % usbKbdBufferLen
  cells : Ring.Holds data.usbKbdBuffer usbKbdBufferLen
    (Ring.next usbKbdBufferLen data.usbOutPointer) queue

theorem holds_clear :
  Holds Pdata.clear []
  := ⟨by decide, by decide, rfl, trivial⟩

/-- What is put into the ring is written behind the last character. -/
theorem Holds.snoc {data : Pdata} {queue : List Byte} (h : Holds data queue)
    (hlength : queue.length < usbKbdBufferLen - 1) (c : Byte) {p : ℕ}
    (hp : p = (data.usbOutPointer + (queue.length + 1)) % usbKbdBufferLen) :
  Holds { data with
    usbInPointer := p
    usbKbdBuffer := Function.update data.usbKbdBuffer p c } (queue ++ [c])
  := by
  have hout := h.out
  constructor
  · exact hout
  · rw [List.length_append, List.length_singleton]
    omega
  · change p = _
    rw [hp, List.length_append, List.length_singleton]
  · change Ring.Holds (Function.update data.usbKbdBuffer p c) _ _ _
    rw [hp, ← Ring.next_add_mod hout]
    exact h.cells.snoc (Ring.next_lt hout) h.length c

theorem Holds.push_of_full {data : Pdata} {queue : List Byte} (h : Holds data queue)
    (hlength : ¬ queue.length < usbKbdBufferLen - 1) (c : Byte) :
  Holds data (push queue c)
  := by
  rw [push, if_neg hlength]
  exact h

/-- The rest of the data stays, and the ring contains what the events put into the queue. -/
structure Keeps (before after : Pdata) (events : List Event) : Prop where
  old : after.old = before.old
  queue : ∀ queue, Holds before queue → Holds after (events.foldl Event.queue queue)

theorem Keeps.trans {a b c : Pdata} {events events' : List Event} (h : Keeps a b events)
    (h' : Keeps b c events') :
  Keeps a c (events ++ events')
  := by
  constructor
  · rw [h'.old, h.old]
  · intro queue hqueue
    rw [List.foldl_append]
    exact h'.queue _ (h.queue _ hqueue)

/-- Nothing is put into the ring. -/
theorem Keeps.silent {data : Pdata} {events : List Event} (h : ∀ e ∈ events, ∀ c, e ≠ .put c) :
  Keeps data data events
  := by
  constructor
  · rfl
  · intro queue hqueue
    have hfold : events.foldl Event.queue queue = queue := by
      clear hqueue
      induction events with
      | nil => rfl
      | cons e events ih =>
          have he : e.queue queue = queue := by
            cases e with
            | put c => exact absurd rfl (h _ List.mem_cons_self c)
            | _ => rfl
          rw [List.foldl_cons, he]
          exact ih fun e he => h e (List.mem_cons_of_mem _ he)
    rw [hfold]
    exact hqueue

/-- The ring is full in the one of two ways that the pointers tell. -/
theorem Holds.room {data : Pdata} {queue : List Byte} (h : Holds data queue) :
  queue.length < usbKbdBufferLen - 1 ↔
    ¬ if data.usbInPointer = usbKbdBufferLen - 1 then data.usbOutPointer = 0
      else data.usbInPointer = (data.usbOutPointer + (2 ^ 32 - 1)) % 2 ^ 32
  := by
  have hout : data.usbOutPointer < 32 := h.out
  have hlength : queue.length < 32 := h.length
  have hin : data.usbInPointer = (data.usbOutPointer + queue.length) % 32 := h.inPointer
  change queue.length < 31 ↔ ¬ if data.usbInPointer = 31 then _ else _
  split_ifs <;> omega

/-- The cell behind the last character. -/
theorem Holds.next_inPointer {data : Pdata} {queue : List Byte} (h : Holds data queue) :
  (data.usbOutPointer + (queue.length + 1)) % usbKbdBufferLen =
    if data.usbInPointer = usbKbdBufferLen - 1 then 0 else data.usbInPointer + 1
  := by
  have hin : data.usbInPointer = (data.usbOutPointer + queue.length) % 32 := h.inPointer
  change (data.usbOutPointer + (queue.length + 1)) % 32 =
    if data.usbInPointer = 31 then 0 else data.usbInPointer + 1
  split_ifs <;> omega

/-- The ring is not changed by what is logged before. -/
theorem Keeps.behind {a b : Pdata} (silent : List Event) {events : List Event}
    (hsilent : ∀ e ∈ silent, ∀ c, e ≠ .put c) (h : Keeps a b events) :
  Keeps a b (silent ++ events)
  := (Keeps.silent hsilent).trans h

theorem logs_usbKbdPutQueue (data : Pdata) (c : Byte) :
  Logs (usbKbdPutQueue data c) fun after events => events = [.put c]
    ∧ Keeps data after events ∧ after.flags = data.flags ∧ after.repeatDelay = data.repeatDelay
  := by
  have hkeep : ∀ p, p = (if data.usbInPointer = usbKbdBufferLen - 1 then 0
        else data.usbInPointer + 1) →
      (∀ queue, Holds data queue → queue.length < usbKbdBufferLen - 1) →
      Keeps data { data with
        usbInPointer := p
        usbKbdBuffer := Function.update data.usbKbdBuffer p c } [.put c] := by
    intro p hp hroom
    constructor
    · rfl
    · intro queue hqueue
      change Holds _ (push queue c)
      rw [push, if_pos (hroom queue hqueue)]
      exact hqueue.snoc (hroom queue hqueue) c (hp.trans hqueue.next_inPointer.symm)
  apply Logs.note_bind
  apply Logs.ite
  · intro hin
    apply Logs.ite
    · intro hout
      apply logs_pure
      refine ⟨rfl, ⟨rfl, ?_⟩, rfl, rfl⟩
      intro queue hqueue
      apply hqueue.push_of_full
      rw [hqueue.room, if_pos hin, not_not]
      exact hout
    · intro hout
      apply logs_pure
      refine ⟨rfl, hkeep 0 (if_pos hin).symm ?_, rfl, rfl⟩
      intro queue hqueue
      rw [hqueue.room, if_pos hin]
      exact hout
  · intro hin
    apply Logs.ite
    · intro hfull
      apply logs_pure
      refine ⟨rfl, ⟨rfl, ?_⟩, rfl, rfl⟩
      intro queue hqueue
      apply hqueue.push_of_full
      rw [hqueue.room, if_neg hin, not_not]
      exact hfull
    · intro hfull
      apply logs_pure
      refine ⟨rfl, hkeep _ (if_neg hin).symm ?_, rfl, rfl⟩
      intro queue hqueue
      rw [hqueue.room, if_neg hin]
      exact hfull

theorem logs_queueSome (data : Pdata) (c : Option Byte) :
  Logs (queueSome data c) fun after events => events = c.toList.map .put
    ∧ Keeps data after events ∧ after.flags = data.flags ∧ after.repeatDelay = data.repeatDelay
  := by
  cases c with
  | none =>
      apply logs_pure
      exact ⟨rfl, Keeps.silent (fun _ h => absurd h List.not_mem_nil), rfl, rfl⟩
  | some c => exact logs_usbKbdPutQueue data c

/-! ### The translation of a key -/

theorem length_usbKbdNumkey :
  usbKbdNumkey.length = 27
  := by decide

theorem length_usbKbdNumkeyShifted :
  usbKbdNumkeyShifted.length = 27
  := by decide

/-- The maps end before Caps Lock. -/
theorem mapOf_inside {scancode modifier : Byte} {p : List Byte × ℕ}
    (h : mapOf scancode modifier = some p) (hcaps : scancode ≠ capsLock) :
  p.2 < p.1.length
  := by
  have hne : scancode.toNat ≠ 57 := fun heq => hcaps (UInt8.toNat_inj.mp heq)
  unfold mapOf at h
  simp only [gt_iff_lt, ge_iff_le, UInt8.lt_iff_toNat_lt, UInt8.le_iff_toNat_le,
    UInt8.reduceToNat] at h
  split_ifs at h with hnum hshift harrow hpad
  case pos =>
    obtain rfl := Option.some.inj h
    rw [length_usbKbdNumkeyShifted]
    omega
  case neg =>
    obtain rfl := Option.some.inj h
    rw [length_usbKbdNumkey]
    omega
  case pos =>
    obtain rfl := Option.some.inj h
    change scancode.toNat - 79 < 4
    omega
  case pos =>
    obtain rfl := Option.some.inj h
    change scancode.toNat - 84 < 20
    omega

/-- What is behind the maps is not read, except for Caps Lock. -/
theorem keycode_stray (stray : Byte) (capital ctrl : Bool) {scancode modifier : Byte}
    (hcaps : scancode ≠ capsLock) :
  keycode stray capital ctrl scancode modifier = keycode 0 capital ctrl scancode modifier
  := by
  have hmap : ((mapOf scancode modifier).elim 0 fun p => p.1.getD p.2 stray) =
      (mapOf scancode modifier).elim 0 fun p => p.1.getD p.2 0 := by
    cases hp : mapOf scancode modifier with
    | none => rfl
    | some p =>
        have hlt := mapOf_inside hp hcaps
        change p.1.getD p.2 stray = p.1.getD p.2 0
        rw [List.getD_eq_getElem _ _ hlt, List.getD_eq_getElem _ _ hlt]
  unfold keycode
  rw [hmap]

/-- Keys that are not translated do not depend on Ctrl. -/
theorem charOf_eq (stray : Byte) (capital : Bool) {ctrl ctrl' : Bool} {scancode modifier : Byte}
    (hcaps : scancode ≠ capsLock) (hctrl : ctrl = ctrl' ∨ ¬ Translated scancode) :
  charOf stray capital ctrl scancode modifier = charOf 0 capital ctrl' scancode modifier
  := by
  unfold charOf
  rw [keycode_stray stray capital ctrl hcaps]
  obtain rfl | hnot := hctrl
  · rfl
  · cases hmenu : menuKey scancode with
    | some c => rfl
    | none =>
        cases hlock : lockKey scancode with
        | some lock => rfl
        | none => exact absurd ⟨hmenu, hlock⟩ hnot

/-! ### The flags -/

/-- A lock key changes one of the locks, and nothing else. -/
theorem lockKey_cases {scancode lock : Byte} (h : lockKey scancode = some lock) :
  lock = usbKbdNumlock ∨ lock = usbKbdCapslock ∨ lock = usbKbdScrolllock
  := by
  unfold lockKey at h
  split_ifs at h
  · exact Or.inl (Option.some.inj h).symm
  · exact Or.inr (Or.inl (Option.some.inj h).symm)
  · exact Or.inr (Or.inr (Option.some.inj h).symm)

theorem xor_and (a b c : Byte) :
  (a ^^^ b) &&& c = (a &&& c) ^^^ (b &&& c)
  := by
  apply UInt8.toBitVec_inj.mp
  apply BitVec.eq_of_getLsbD_eq
  intro i _
  simp [Bool.and_xor_distrib_right]

theorem or_and (a b c : Byte) :
  (a ||| b) &&& c = (a &&& c) ||| (b &&& c)
  := UInt8.toBitVec_inj.mp BitVec.and_or_distrib_right

theorem or_and_self (a b : Byte) :
  (a ||| b) &&& b = b
  := by
  apply UInt8.toBitVec_inj.mp
  apply BitVec.eq_of_getLsbD_eq
  intro i _
  simp only [UInt8.toBitVec_and, UInt8.toBitVec_or, BitVec.getLsbD_and, BitVec.getLsbD_or,
    Bool.and_eq_right_iff_imp, Bool.or_eq_true]
  exact Or.inr

theorem xor_lock_ctrl {scancode lock : Byte} (h : lockKey scancode = some lock) (flags : Byte) :
  (flags ^^^ lock) &&& usbKbdCtrl = flags &&& usbKbdCtrl
  := by
  have hlock : lock &&& usbKbdCtrl = 0 := by
    obtain rfl | rfl | rfl := lockKey_cases h <;> decide
  rw [xor_and, hlock, UInt8.xor_zero]

theorem xor_lock_locks {scancode lock : Byte} (h : lockKey scancode = some lock) (flags : Byte) :
  (flags ^^^ lock) &&& usbKbdLedmask = (flags &&& usbKbdLedmask) ^^^ lock
  := by
  have hlock : lock &&& usbKbdLedmask = lock := by
    obtain rfl | rfl | rfl := lockKey_cases h <;> decide
  rw [xor_and, hlock]

theorem locks_capslock (flags : Byte) :
  flags &&& usbKbdLedmask &&& usbKbdCapslock = flags &&& usbKbdCapslock
  := by
  rw [UInt8.and_assoc]
  rfl

/-- The flag for Ctrl is none of the locks. -/
theorem ctrlFlag_locks (flags modifier : Byte) :
  ctrlFlag flags modifier &&& usbKbdLedmask = flags &&& usbKbdLedmask
  := by
  unfold ctrlFlag
  split_ifs
  · rw [UInt8.and_assoc]
    rfl
  · rw [or_and]
    exact UInt8.or_zero
  · rfl

/-- The flag for Ctrl says what the modifiers say. -/
theorem ctrlFlag_ctrl {flags modifier : Byte}
    (h : modifier = 0 ∨ modifier = leftCntr ∨ modifier = rightCntr
      ∨ (flags &&& usbKbdCtrl ≠ 0 ↔ ctrlOf modifier = true)) :
  (ctrlFlag flags modifier &&& usbKbdCtrl ≠ 0) ↔ ctrlOf modifier = true
  := by
  unfold ctrlFlag
  split_ifs with hzero hctrl
  case pos =>
    have hnone : ~~~usbKbdCtrl &&& usbKbdCtrl = 0 := by decide
    rw [UInt8.and_assoc, hzero, hnone, UInt8.and_zero]
    decide
  case pos =>
    rw [or_and_self]
    obtain rfl | rfl := hctrl <;> decide
  case neg =>
    obtain h | h | h | h := h
    · exact absurd h hzero
    · exact absurd (Or.inl h) hctrl
    · exact absurd (Or.inr h) hctrl
    · exact h

/-! ### What is logged -/

theorem Event.Silent.ne_put {e : Event} (h : e.Silent) (c : Byte) :
  e ≠ .put c
  := by
  rintro rfl
  exact h

theorem Event.Silent.ne_press {e : Event} (h : e.Silent) (k : Byte) :
  e ≠ .press k
  := by
  rintro rfl
  exact h

theorem Event.Silent.inside {e : Event} (h : e.Silent) {map : List Byte} {i : ℕ}
    (he : e = .lookup map i) :
  i < map.length
  := by
  rw [he] at h
  exact h

theorem lockKey_of_menuKey {scancode : Byte} (h : menuKey scancode ≠ none) :
  lockKey scancode = none
  := by
  unfold menuKey at h
  split_ifs at h
  all_goals first | contradiction | (subst scancode; decide)

theorem logs_switchConsole (scancode modifier : Byte) :
  Logs (switchConsole scancode modifier) fun _ events => ∀ e ∈ events, e.Silent
  := by
  apply Logs.ite
  · intro _
    apply Logs.note_bind
    apply Logs.note_bind
    apply logs_note
    intro e he
    simp only [List.mem_cons, List.not_mem_nil, or_false] at he
    obtain rfl | rfl | rfl := he <;> trivial
  · intro _
    apply logs_pure
    intro e he
    cases he

/-- A map is read inside its bounds, unless the key is Caps Lock. -/
theorem logs_lookMap (scancode modifier : Byte) :
  Logs (lookMap scancode modifier) fun _ events =>
    ∀ e ∈ events, (∃ map i, e = .lookup map i) ∧ (scancode ≠ capsLock → e.Silent)
  := by
  unfold lookMap
  cases hp : mapOf scancode modifier with
  | none =>
      apply logs_pure
      intro e he
      cases he
  | some p =>
      apply logs_note
      intro e he
      obtain rfl := List.mem_singleton.mp he
      exact ⟨⟨p.1, p.2, rfl⟩, mapOf_inside hp⟩

/-- A key that is pressed queues what the menu has for it, or its character, which lock keys do
not have. -/
theorem logs_pressed (data : Pdata) (scancode modifier c : Byte) :
  Logs (pressed data scancode modifier c) fun r events => Keeps data r.2 events
    ∧ r.2.repeatDelay = data.repeatDelay
    ∧ r.2.flags = data.flags ^^^ (lockKey scancode).getD 0
    ∧ ∃ console : List Event, (∀ e ∈ console, e.Silent)
      ∧ events = ((menuKey scancode).getD ((lockKey scancode).elim
        (if c ≠ 0 then some c else none) fun _ => none)).toList.map .put ++ console
  := by
  unfold pressed
  cases hmenu : menuKey scancode with
  | some queued =>
      have hlock : lockKey scancode = none := by
        apply lockKey_of_menuKey
        rw [hmenu]
        rintro ⟨⟩
      apply Logs.bind (logs_queueSome data queued)
      rintro after events ⟨rfl, hkeeps, hflags, hdelay⟩
      apply Logs.bind (logs_switchConsole scancode modifier)
      intro _ console hconsole
      apply logs_pure
      rw [List.append_nil, hlock]
      refine ⟨hkeeps.trans (Keeps.silent fun e he => (hconsole e he).ne_put), hdelay, ?_,
        console, hconsole, rfl⟩
      rw [hflags]
      exact UInt8.xor_zero.symm
  | none =>
      cases hlock : lockKey scancode with
      | some lock =>
          apply logs_pure
          refine ⟨⟨rfl, fun queue hqueue => ?_⟩, rfl, rfl, [], ?_, rfl⟩
          · exact ⟨hqueue.out, hqueue.length, hqueue.inPointer, hqueue.cells⟩
          · intro e he
            cases he
      | none =>
          apply Logs.bind (logs_queueSome data _)
          rintro after events ⟨rfl, hkeeps, hflags, hdelay⟩
          apply logs_pure
          rw [List.append_nil]
          refine ⟨hkeeps, hdelay, ?_, [], ?_, (List.append_nil _).symm⟩
          · rw [hflags]
            exact UInt8.xor_zero.symm
          · intro e he
            cases he

/-- A key that is released. -/
theorem usbKbdTranslate_zero (stray : Byte) (data : Pdata) (scancode modifier : Byte) :
  usbKbdTranslate stray data scancode modifier 0 = pure (false, { data with repeatDelay := 0 })
  := if_pos rfl

/-- A key that is pressed queues the right character if the flag for Ctrl is right. -/
theorem logs_usbKbdTranslate_one (stray : Byte) (data : Pdata) {scancode modifier : Byte}
    (hcaps : scancode ≠ capsLock)
    (hctrl : (data.flags &&& usbKbdCtrl ≠ 0 ↔ ctrlOf modifier = true) ∨ ¬ Translated scancode) :
  Logs (usbKbdTranslate stray data scancode modifier 1) fun r events => Keeps data r.2 events
    ∧ r.2.repeatDelay = data.repeatDelay
    ∧ r.2.flags = data.flags ^^^ (lockKey scancode).getD 0
    ∧ ∃ look console : List Event, (∀ e ∈ look, e.Silent) ∧ (∀ e ∈ console, e.Silent)
      ∧ events = .press scancode :: (look
        ++ (pressChar scancode modifier (data.flags &&& usbKbdLedmask)).toList.map .put ++ console)
  := by
  have hchar : charOf stray (data.flags &&& usbKbdCapslock ≠ 0) (data.flags &&& usbKbdCtrl ≠ 0)
      scancode modifier = pressChar scancode modifier (data.flags &&& usbKbdLedmask) := by
    unfold pressChar
    rw [locks_capslock]
    apply charOf_eq stray _ hcaps
    apply Or.imp_left _ hctrl
    intro h
    exact Bool.eq_iff_iff.mpr (decide_eq_true_iff.trans h)
  apply Logs.note_bind
  apply Logs.bind (logs_lookMap scancode modifier)
  intro _ look hlook
  apply Logs.mono (logs_pressed data scancode modifier _)
  rintro r _ ⟨hkeeps, hdelay, hflags, console, hconsole, rfl⟩
  refine ⟨?_, hdelay, hflags, look, console, fun e he => (hlook e he).2 hcaps, hconsole, ?_⟩
  · apply Keeps.behind (.press scancode :: look) _ hkeeps
    intro e he c
    obtain rfl | he := List.mem_cons.mp he
    · rintro ⟨⟩
    · exact ((hlook e he).2 hcaps).ne_put c
  · rw [← hchar, List.append_assoc]
    rfl

/-- A key that is still pressed is no new key. -/
theorem logs_usbKbdTranslate_two (stray : Byte) (data : Pdata) {scancode modifier : Byte}
    (hcaps : scancode = capsLock → data.repeatDelay + 1 < maxDelay) :
  Logs (usbKbdTranslate stray data scancode modifier 2) fun r events => Keeps data r.2 events
    ∧ r.2.flags = data.flags
    ∧ (∀ k, .press k ∉ events) ∧ ∀ map i, .lookup map i ∈ events → i < map.length
  := by
  apply Logs.ite
  · rintro ⟨⟩
  · intro _
    apply Logs.ite
    · intro _
      apply logs_pure
      refine ⟨⟨rfl, fun queue hqueue => ?_⟩, rfl, ?_, ?_⟩
      · exact ⟨hqueue.out, hqueue.length, hqueue.inPointer, hqueue.cells⟩
      · intro k hk
        cases hk
      · intro map i hi
        cases hi
    · intro hdelay
      have hne : scancode ≠ capsLock := fun h => hdelay ⟨rfl, hcaps h⟩
      apply Logs.note_bind
      apply Logs.bind (logs_lookMap scancode modifier)
      intro _ look hlook
      apply Logs.bind (logs_queueSome _ _)
      rintro after queued ⟨hqueued, hkeeps, hflags, -⟩
      apply logs_pure
      rw [List.append_nil]
      have hsilent : ∀ e ∈ Event.again scancode :: look,
          (∀ c, e ≠ .put c) ∧ ∀ k, e ≠ .press k := by
        intro e he
        obtain rfl | he := List.mem_cons.mp he
        · constructor
          · rintro c ⟨⟩
          · rintro k ⟨⟩
        · exact ⟨((hlook e he).2 hne).ne_put, ((hlook e he).2 hne).ne_press⟩
      have hput : ∀ e ∈ queued, ∃ c, e = .put c := by
        intro e he
        rw [hqueued] at he
        obtain ⟨c, -, rfl⟩ := List.mem_map.mp he
        exact ⟨c, rfl⟩
      refine ⟨?_, hflags, ?_, ?_⟩
      · apply Keeps.behind (.again scancode :: look) (fun e he => (hsilent e he).1)
        exact ⟨hkeeps.old, fun queue hqueue => hkeeps.queue queue
          ⟨hqueue.out, hqueue.length, hqueue.inPointer, hqueue.cells⟩⟩
      · intro k hk
        change _ ∈ Event.again scancode :: look ++ queued at hk
        obtain hk | hk := List.mem_append.mp hk
        · exact (hsilent _ hk).2 k rfl
        · obtain ⟨c, ⟨⟩⟩ := hput _ hk
      · intro map i hi
        change _ ∈ Event.again scancode :: look ++ queued at hi
        obtain hi | hi := List.mem_append.mp hi
        · obtain hi | hi := List.mem_cons.mp hi
          · cases hi
          · exact ((hlook _ hi).2 hne).inside rfl
        · obtain ⟨c, ⟨⟩⟩ := hput _ hi

/-! ### A report -/

section Report

variable (stray : Byte) {new : Report}

/-- A key of the old report that is not in the new one is released. -/
theorem logs_released (data : Pdata) (i : Fin 8) :
  Logs (usbKbdServiceKey stray new data i 0) fun r events => events = [] ∧ ∃ delay,
    r.2 = { data with repeatDelay := delay } ∧ delay ≤ data.repeatDelay
      ∧ (data.old i > 3 ∧ data.old i ∉ new.keys → delay = 0)
  := by
  apply Logs.ite
  · intro _
    rw [usbKbdTranslate_zero]
    apply logs_pure
    exact ⟨rfl, 0, rfl, Nat.zero_le _, fun _ => rfl⟩
  · intro hnot
    apply logs_pure
    exact ⟨rfl, data.repeatDelay, rfl, Nat.le_refl _, fun h => absurd h hnot⟩

/-- The keys of some slots that are not in the old report. -/
def pressedKeys (old new : Report) (is : List (Fin 8)) : List Byte :=
  (is.map new).filter fun k => k > 3 ∧ k ∉ old.keys

theorem lock_locks (flags k : Byte) :
  (flags ^^^ (lockKey k).getD 0) &&& usbKbdLedmask =
    (flags &&& usbKbdLedmask) ^^^ (lockKey k).getD 0
  := by
  cases hlock : lockKey k with
  | some lock => exact xor_lock_locks hlock flags
  | none =>
      change (flags ^^^ 0) &&& _ = _ ^^^ 0
      rw [UInt8.xor_zero, UInt8.xor_zero]

theorem lock_ctrl (flags k : Byte) :
  (flags ^^^ (lockKey k).getD 0) &&& usbKbdCtrl = flags &&& usbKbdCtrl
  := by
  cases hlock : lockKey k with
  | some lock => exact xor_lock_ctrl hlock flags
  | none =>
      change (flags ^^^ 0) &&& _ = _
      rw [UInt8.xor_zero]

theorem logs_serviceKeys (is : List (Fin 8)) (res : Bool) (data : Pdata)
    (hcaps : capsLock ∉ pressedKeys data.old new is)
    (hctrl : (data.flags &&& usbKbdCtrl ≠ 0 ↔ ctrlOf (new 0) = true)
      ∨ ∀ k ∈ pressedKeys data.old new is, ¬ Translated k) :
  Logs (serviceKeys stray new is res data) fun r events => Keeps data r.2 events
    ∧ Presses (new 0) (data.flags &&& usbKbdLedmask) (pressedKeys data.old new is) events
      (r.2.flags &&& usbKbdLedmask)
    ∧ r.2.repeatDelay ≤ data.repeatDelay
    ∧ ((∃ i ∈ is, data.old i > 3 ∧ data.old i ∉ new.keys) → r.2.repeatDelay = 0)
  := by
  induction is generalizing res data with
  | nil =>
      apply logs_pure
      refine ⟨Keeps.silent fun _ h => ?_, .nil _, Nat.le_refl _, ?_⟩
      · cases h
      · rintro ⟨i, hi, -⟩
        cases hi
  | cons i is ih =>
      apply Logs.bind (logs_released stray data i)
      rintro ⟨released, data'⟩ _ ⟨rfl, delay, rfl, hle, hreleased⟩
      have hkeep : Keeps data { data with repeatDelay := delay } [] :=
        ⟨rfl, fun _ hqueue => ⟨hqueue.out, hqueue.length, hqueue.inPointer, hqueue.cells⟩⟩
      have hzero : ∀ d, d ≤ delay →
          ((∃ i ∈ is, data.old i > 3 ∧ data.old i ∉ new.keys) → d = 0) →
          (∃ j ∈ i :: is, data.old j > 3 ∧ data.old j ∉ new.keys) → d = 0 := by
        rintro d hd hlater ⟨j, hj, h⟩
        obtain rfl | hj := List.mem_cons.mp hj
        · have hdelay := hreleased h
          omega
        · exact hlater ⟨j, hj, h⟩
      by_cases hpressed : new i > 3 ∧ new i ∉ data.old.keys
      case pos =>
        have hkeys : pressedKeys data.old new (i :: is) =
            new i :: pressedKeys data.old new is :=
          List.filter_cons_of_pos (decide_eq_true hpressed)
        rw [hkeys] at hcaps hctrl ⊢
        have hstep : usbKbdServiceKey stray new { data with repeatDelay := delay } i 1 =
            usbKbdTranslate stray { data with repeatDelay := delay } (new i) (new 0) 1 :=
          if_pos hpressed
        have hctrl' : (data.flags &&& usbKbdCtrl ≠ 0 ↔ ctrlOf (new 0) = true)
            ∨ ¬ Translated (new i) :=
          Or.imp_right (fun h => h _ List.mem_cons_self) hctrl
        rw [hstep]
        apply Logs.bind (logs_usbKbdTranslate_one stray { data with repeatDelay := delay }
          (fun h => hcaps (h ▸ List.mem_cons_self)) hctrl')
        rintro ⟨pressed, after⟩ _ ⟨hkeeps, hdelay, hflags, look, console, hlook, hconsole, rfl⟩
        have hold : after.old = data.old := hkeeps.old
        have hcaps' : capsLock ∉ pressedKeys after.old new is := by
          rw [hold]
          exact fun h => hcaps (List.mem_cons_of_mem _ h)
        have hctrl'' : (after.flags &&& usbKbdCtrl ≠ 0 ↔ ctrlOf (new 0) = true)
            ∨ ∀ k ∈ pressedKeys after.old new is, ¬ Translated k := by
          rw [hold, hflags, lock_ctrl]
          exact Or.imp_right (fun h k hk => h k (List.mem_cons_of_mem _ hk)) hctrl
        apply Logs.mono (ih (res || released || pressed) after hcaps' hctrl'')
        rintro r events ⟨hkeeps', hpresses, hle', hreleased'⟩
        change after.repeatDelay = delay at hdelay
        rw [hold] at hpresses hreleased'
        rw [hflags, lock_locks] at hpresses
        refine ⟨?_, .cons hlook hconsole hpresses, by omega, ?_⟩
        · exact (hkeep.trans hkeeps).trans hkeeps'
        · exact hzero r.2.repeatDelay (by omega) hreleased'
      case neg =>
        have hkeys : pressedKeys data.old new (i :: is) = pressedKeys data.old new is :=
          List.filter_cons_of_neg (fun h => hpressed (of_decide_eq_true h))
        rw [hkeys] at hcaps hctrl ⊢
        have hstep : usbKbdServiceKey stray new { data with repeatDelay := delay } i 1 =
            pure (false, { data with repeatDelay := delay }) := if_neg hpressed
        rw [hstep]
        apply Logs.mono
          (ih (res || released || false) { data with repeatDelay := delay } hcaps hctrl)
        rintro r events ⟨hkeeps', hpresses, hle', hreleased'⟩
        change r.2.repeatDelay ≤ delay at hle'
        refine ⟨hkeep.trans hkeeps', hpresses, by omega, ?_⟩
        exact hzero r.2.repeatDelay hle' hreleased'

theorem Presses.count {modifier locks locks' : Byte} {ks : List Byte} {events : List Event}
    (h : Presses modifier locks ks events locks') (k : Byte) :
  events.count (.press k) = ks.count k
  := by
  induction h with
  | nil => rfl
  | @cons locks locks' k' ks look console events hlook hconsole _ ih =>
      have hnone : ∀ {l : List Event}, (∀ e ∈ l, e.Silent) → l.count (.press k) = 0 :=
        fun hsilent => List.count_eq_zero.mpr fun hmem => (hsilent _ hmem).ne_press k rfl
      have hput : ((pressChar k' modifier locks).toList.map Event.put).count (.press k) = 0 := by
        apply List.count_eq_zero.mpr
        intro hmem
        obtain ⟨c, -, ⟨⟩⟩ := List.mem_map.mp hmem
      rw [List.count_cons, List.count_append, List.count_append, List.count_append, hnone hlook,
        hnone hconsole, hput, ih, List.count_cons]
      have hbeq : (Event.press k' == Event.press k) = (k' == k) := by
        rw [Bool.eq_iff_iff, beq_iff_eq, beq_iff_eq, Event.press.injEq]
      rw [hbeq, Nat.zero_add]

theorem Presses.inside {modifier locks locks' : Byte} {ks : List Byte} {events : List Event}
    (h : Presses modifier locks ks events locks') {map : List Byte} {i : ℕ}
    (hi : .lookup map i ∈ events) :
  i < map.length
  := by
  induction h with
  | nil => cases hi
  | cons hlook hconsole _ ih =>
      obtain hi | hi := List.mem_cons.mp hi
      · cases hi
      · obtain hi | hi := List.mem_append.mp hi
        · obtain hi | hi := List.mem_append.mp hi
          · obtain hi | hi := List.mem_append.mp hi
            · exact (hlook _ hi).inside rfl
            · obtain ⟨c, -, ⟨⟩⟩ := List.mem_map.mp hi
          · exact (hconsole _ hi).inside rfl
        · exact ih hi

/-- The first key queues its character. -/
theorem Presses.put_mem {modifier locks locks' k c : Byte} {ks : List Byte} {events : List Event}
    (h : Presses modifier locks (k :: ks) events locks')
    (hc : pressChar k modifier locks = some c) :
  .put c ∈ events
  := by
  cases h with
  | cons _ _ _ =>
      rw [hc]
      simp

theorem logs_stillPressed (data : Pdata)
    (hcaps : new 2 = capsLock → data.old 2 = new 2 → data.repeatDelay + 1 < maxDelay) :
  Logs (stillPressed stray new data) fun r events => Keeps data r.2 events
    ∧ r.2.flags = data.flags
    ∧ (∀ k, .press k ∉ events) ∧ ∀ map i, .lookup map i ∈ events → i < map.length
  := by
  apply Logs.ite
  · intro h
    exact logs_usbKbdTranslate_two stray data fun hscancode => hcaps hscancode h.2
  · intro _
    apply logs_pure
    refine ⟨Keeps.silent fun _ h => ?_, rfl, ?_, ?_⟩
    · cases h
    · intro k hk
      cases hk
    · intro map i hi
      cases hi

theorem logs_setled (res : Bool) (data : Pdata) :
  Logs (setled res data) fun _ events => ∀ e ∈ events, ∃ leds, e = .setled leds
  := by
  apply Logs.ite
  · intro _
    apply logs_note
    intro e he
    exact ⟨_, List.mem_singleton.mp he⟩
  · intro _
    apply logs_pure
    intro e he
    cases he

/-- A report is right if the flag for Ctrl is, and the maps are not read for Caps Lock. -/
theorem logs_usbKbdIrqWorker {data : Pdata} (hdistinct : Distinct new)
    (hctrl : CtrlRight data new) (hcaps : ¬ CapsLooked data new) :
  Logs (usbKbdIrqWorker stray data new) fun after events => after.old = new
    ∧ (∀ queue, Holds data queue → Holds after (events.foldl Event.queue queue))
    ∧ Right data new events after
  := by
  have hctrl' : (ctrlFlag data.flags (new 0) &&& usbKbdCtrl ≠ 0 ↔ ctrlOf (new 0) = true)
      ∨ ∀ k ∈ pressedKeys data.old new slots, ¬ Translated k := by
    obtain h | h | h | h | h := hctrl
    · exact Or.inl (ctrlFlag_ctrl (Or.inl h))
    · exact Or.inl (ctrlFlag_ctrl (Or.inr (Or.inl h)))
    · exact Or.inl (ctrlFlag_ctrl (Or.inr (Or.inr (Or.inl h))))
    · exact Or.inl (ctrlFlag_ctrl (Or.inr (Or.inr (Or.inr h))))
    · exact Or.inr h
  have hcaps' : capsLock ∉ pressedKeys data.old new slots := fun h => hcaps (Or.inl h)
  apply Logs.bind (logs_serviceKeys stray slots false
    { data with flags := ctrlFlag data.flags (new 0) } hcaps' hctrl')
  rintro ⟨res, keys⟩ presses ⟨hkeeps, hpresses, hle, hreleased⟩
  have hold : keys.old = data.old := hkeeps.old
  have hdelay : new 2 = capsLock → keys.old 2 = new 2 → keys.repeatDelay + 1 < maxDelay := by
    intro hnew hsame
    by_contra hlong
    have hlong' : maxDelay ≤ keys.repeatDelay + 1 := Nat.le_of_not_lt hlong
    have hle' : keys.repeatDelay ≤ data.repeatDelay := hle
    refine hcaps (Or.inr ⟨hnew, ?_, by omega, ?_⟩)
    · rw [← hold, hsame, hnew]
    · intro k hk hpos
      by_contra hnot
      obtain ⟨i, hi, rfl⟩ := List.mem_map.mp hk
      have hzero : keys.repeatDelay = 0 := hreleased ⟨i, hi, hpos, hnot⟩
      rw [hzero] at hlong'
      exact absurd hlong' (by decide)
  apply Logs.bind (logs_stillPressed stray keys hdelay)
  rintro ⟨held, data'⟩ again ⟨hkeeps', hflags, hagain, hinside⟩
  apply Logs.bind (logs_setled (res || held) data')
  intro _ leds hleds
  apply logs_pure
  rw [List.append_nil]
  refine ⟨rfl, ?_, ?_⟩
  · intro queue hqueue
    have hleds' : Keeps data' data' leds := Keeps.silent fun e he c => by
      obtain ⟨_, rfl⟩ := hleds e he
      rintro ⟨⟩
    have hstart : Holds { data with flags := ctrlFlag data.flags (new 0) } queue :=
      ⟨hqueue.out, hqueue.length, hqueue.inPointer, hqueue.cells⟩
    have hend := (hkeeps.trans (hkeeps'.trans hleds')).queue queue hstart
    exact ⟨hend.out, hend.length, hend.inPointer, hend.cells⟩
  · have hothers : ∀ e ∈ again ++ leds, (∀ k, e ≠ .press k)
        ∧ ∀ map i, e = .lookup map i → i < map.length := by
      intro e he
      obtain he | he := List.mem_append.mp he
      · constructor
        · rintro k rfl
          exact hagain k he
        · rintro map i rfl
          exact hinside map i he
      · obtain ⟨_, rfl⟩ := hleds e he
        constructor
        · rintro k ⟨⟩
        · rintro map i ⟨⟩
    have hpresses' : Presses (new 0) (data.flags &&& usbKbdLedmask) (newKeys data.old new) presses
        (data'.flags &&& usbKbdLedmask) := by
      rw [hflags, ← ctrlFlag_locks data.flags (new 0)]
      exact hpresses
    constructor
    · exact ⟨presses, again ++ leds, rfl, hpresses', fun k hk => (hothers _ hk).1 k rfl⟩
    · intro k
      have hnone : (again ++ leds).count (.press k) = 0 :=
        List.count_eq_zero.mpr fun hk => (hothers _ hk).1 k rfl
      have hnodup : (newKeys data.old new).Nodup := by
        apply List.Nodup.sublist _ hdistinct
        apply List.monotone_filter_right
        intro k hk
        exact decide_eq_true (of_decide_eq_true hk).1
      rw [List.count_append, hpresses'.count, hnone, hnodup.count]
      rfl
    · intro map i hi
      obtain hi | hi := List.mem_append.mp hi
      · exact hpresses'.inside hi
      · exact (hothers _ hi).2 map i rfl

end Report

/-! ### Runs -/

/-- The data are what the keyboard is for. -/
structure Represents (data : Pdata) (σ : Spec) : Prop where
  queue : Holds data σ.queue
  old : data.old = σ.old
  locks : data.flags &&& usbKbdLedmask = σ.locks

def Spec.start : Spec := ⟨[], fun _ => 0, 0⟩

theorem represents_clear :
  Represents Pdata.clear Spec.start
  := ⟨holds_clear, rfl, rfl⟩

/-- The reports of a log are distinct, and do not meet what is wrong. -/
def Meets (log : List Entry) : Prop :=
  ∀ before new events after, Entry.worked before new events after ∈ log →
    Distinct new ∧ CtrlRight before new ∧ ¬ CapsLooked before new

theorem Meets.left {log log' : List Entry} (h : Meets (log ++ log')) :
  Meets log
  := fun _ _ _ _ hmem => h _ _ _ _ (List.mem_append_left _ hmem)

theorem Meets.right {log log' : List Entry} (h : Meets (log ++ log')) :
  Meets log'
  := fun _ _ _ _ hmem => h _ _ _ _ (List.mem_append_right _ hmem)

/-- The reports of a log are right, and it is the log of a queue. -/
structure Good (σ : Spec) (log : List Entry) (data : Pdata) : Prop where
  right : ∀ before new events after, Entry.worked before new events after ∈ log →
    Right before new events after
  replays : ∃ τ, Replays σ log τ ∧ Represents data τ

theorem Replays.append {σ τ υ : Spec} {log log' : List Entry} (h : Replays σ log τ)
    (h' : Replays τ log' υ) :
  Replays σ (log ++ log') υ
  := by
  induction h with
  | nil => exact h'
  | worked hold hlocks _ ih => exact .worked hold hlocks (ih h')
  | got _ ih => exact .got (ih h')

/-- A part of a run has a good log if it meets the condition. -/
def Serves (data : Pdata) (part : List Entry × Pdata) : Prop :=
  ∀ σ, Represents data σ → Meets part.1 → Good σ part.1 part.2

theorem serves_nil (data : Pdata) :
  Serves data ([], data)
  := by
  intro σ hσ _
  constructor
  · intro _ _ _ _ h
    cases h
  · exact ⟨σ, .nil σ, hσ⟩

/-- One part after the other. -/
theorem Serves.append {data : Pdata} {p q : List Entry × Pdata} (hp : Serves data p)
    (hq : Serves p.2 q) :
  Serves data (p.1 ++ q.1, q.2)
  := by
  intro σ hσ hmeets
  obtain ⟨hright, τ, hreplays, hτ⟩ := hp σ hσ hmeets.left
  obtain ⟨hright', υ, hreplays', hυ⟩ := hq τ hτ hmeets.right
  constructor
  · intro before new events after hmem
    obtain hmem | hmem := List.mem_append.mp hmem
    · exact hright _ _ _ _ hmem
    · exact hright' _ _ _ _ hmem
  · exact ⟨υ, hreplays.append hreplays', hυ⟩

/-- The character behind the one that was taken last is taken. -/
theorem takeChar_eq (data : Pdata) :
  takeChar data = ([.got (data.usbKbdBuffer (Ring.next usbKbdBufferLen data.usbOutPointer))],
    { data with usbOutPointer := Ring.next usbKbdBufferLen data.usbOutPointer })
  := by
  have hnext : (if data.usbOutPointer = usbKbdBufferLen - 1 then 0
      else data.usbOutPointer + 1) = Ring.next usbKbdBufferLen data.usbOutPointer := by
    change (if data.usbOutPointer = 31 then 0 else _) =
      if data.usbOutPointer + 1 = 32 then 0 else _
    split_ifs <;> omega
  unfold takeChar
  rw [hnext]

/-- A character that waits is the first one of the queue. -/
theorem serves_takeChar {data : Pdata} (h : data.usbInPointer ≠ data.usbOutPointer) :
  Serves data (takeChar data)
  := by
  rintro ⟨queue, old, locks⟩ ⟨hqueue, hold, hlocks⟩ _
  constructor
  · intro _ _ _ _ hmem
    cases List.mem_singleton.mp hmem
  · cases queue with
    | nil =>
        have hout : data.usbOutPointer < 32 := hqueue.out
        have hin : data.usbInPointer = (data.usbOutPointer + 0) % 32 := hqueue.inPointer
        omega
    | cons c queue =>
        have hlength : queue.length + 1 < usbKbdBufferLen := hqueue.length
        have hc : data.usbKbdBuffer (Ring.next usbKbdBufferLen data.usbOutPointer) = c :=
          hqueue.cells.1
        rw [takeChar_eq, hc]
        refine ⟨⟨queue, old, locks⟩, .got (.nil _), ⟨?_, ?_, ?_, hqueue.cells.2⟩, hold, hlocks⟩
        · exact Ring.next_lt hqueue.out
        · exact Nat.lt_of_succ_lt hlength
        · change _ = (Ring.next usbKbdBufferLen data.usbOutPointer + queue.length) % _
          rw [Ring.next_add_mod hqueue.out]
          exact hqueue.inPointer

section Run

variable (stray : Byte)

theorem serves_work (data : Pdata) (new : Report) :
  Serves data (work stray data new)
  := by
  intro σ hσ hmeets
  have hlogs : Distinct new → CtrlRight data new → ¬ CapsLooked data new → _ :=
    fun hdistinct hctrl hcaps => (logs_usbKbdIrqWorker stray hdistinct hctrl hcaps).events
  unfold work at hmeets ⊢
  unfold events at hlogs
  generalize usbKbdIrqWorker stray data new [] = r at hmeets hlogs ⊢
  obtain ⟨hdistinct, hctrl, hcaps⟩ := hmeets data new r.2 r.1 (List.mem_singleton.mpr rfl)
  obtain ⟨hold, hqueue, hright⟩ := hlogs hdistinct hctrl hcaps
  constructor
  · intro before new' events after hmem
    obtain ⟨rfl, rfl, rfl, rfl⟩ := Entry.worked.inj (List.mem_singleton.mp hmem)
    exact hright
  · refine ⟨_, .worked hσ.old hσ.locks (.nil _), ?_⟩
    exact ⟨hqueue _ hσ.queue, hold, rfl⟩

theorem serves_usbKbdPollForEvent (data : Pdata) (new : Report) :
  Serves data (usbKbdPollForEvent stray data new)
  := by
  unfold usbKbdPollForEvent
  split
  · apply serves_work
  · apply serves_nil

theorem serves_usbKbdGetc (polls : List Report) (data : Pdata) :
  Serves data (usbKbdGetc stray polls data)
  := by
  induction polls generalizing data with
  | nil =>
      unfold usbKbdGetc
      split
      case isTrue => apply serves_nil
      case isFalse h => exact serves_takeChar h
  | cons new polls ih =>
      unfold usbKbdGetc
      split
      case isTrue =>
        apply Serves.append
        · apply serves_usbKbdPollForEvent
        · apply ih
      case isFalse h => exact serves_takeChar h

theorem serves_run (as : List Action) (data : Pdata) :
  Serves data (run stray as data)
  := by
  induction as generalizing data with
  | nil => apply serves_nil
  | cons a as ih =>
      apply Serves.append (p := act stray data a)
      · cases a with
        | report new => apply serves_work
        | getc polls => apply serves_usbKbdGetc
      · apply ih

/-- In every run whose reports are distinct and do not meet what is wrong, every report is right:
each new key is pressed once, queues the character that it has with the modifiers of the report and
the locks, and maps are read inside their bounds.  The characters come out in the order in which
they were put, and one is dropped only if 31 wait. -/
theorem run_right (as : List Action) (h : Meets (run stray as Pdata.clear).1) :
  Good Spec.start (run stray as Pdata.clear).1 (run stray as Pdata.clear).2
  := serves_run stray as Pdata.clear _ represents_clear h

end Run

/-- A report with a modifier byte and one key. -/
def oneKey (modifier k : Byte) : Report :=
  Function.update (Function.update (fun _ => 0) 0 modifier) 2 k

/-- The letter `a` with Ctrl, and then the character is taken. -/
theorem run_right_ctrl :
  Good Spec.start (run 0 [.report (oneKey leftCntr 4), .getc []] Pdata.clear).1
    (run 0 [.report (oneKey leftCntr 4), .getc []] Pdata.clear).2
  := by
  apply run_right
  intro before new events after hmem
  obtain hmem | hmem := List.mem_cons.mp hmem
  · obtain ⟨rfl, rfl, rfl, rfl⟩ := Entry.worked.inj hmem
    refine ⟨?_, Or.inr (Or.inl rfl), ?_⟩
    · unfold Distinct
      decide
    · unfold CapsLooked
      decide
  · cases List.mem_singleton.mp hmem

/-- Caps Lock reads the map behind its end, and Ctrl is missed when Shift is pressed, too. -/
theorem run_wrong :
  (¬ Good Spec.start (run 0 [.report (oneKey 0 capsLock)] Pdata.clear).1
      (run 0 [.report (oneKey 0 capsLock)] Pdata.clear).2)
    ∧ ¬ Good Spec.start (run 0 [.report (oneKey (leftCntr ||| leftShift) 4)] Pdata.clear).1
      (run 0 [.report (oneKey (leftCntr ||| leftShift) 4)] Pdata.clear).2
  := by
  constructor
  · intro h
    have hlt := (h.right _ _ _ _ List.mem_cons_self).inside usbKbdNumkey 27 (by decide)
    exact absurd hlt (by decide)
  · intro h
    obtain ⟨presses, others, hevents, hpresses, -⟩ := (h.right _ _ _ _ List.mem_cons_self).presses
    have hput : Event.put 1 ∈ presses := hpresses.put_mem (by decide)
    have hmem := List.mem_append_left others hput
    rw [← hevents] at hmem
    revert hmem
    decide

end UsbKbd
