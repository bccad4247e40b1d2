import UBoot.Lib.Memory
import UBoot.Lib.Ring

/-!
# Circular buffers

`lib/circbuf.c`: a buffer that keeps the last bytes that were pushed and not popped.  Pointers are
places in the data area.
-/

namespace Circbuf

/-- `circbuf_t`; the end of the data area is `totalsize`. -/
structure CircbufT where
  size : ℕ
  totalsize : ℕ
  top : ℕ
  tail : ℕ
  data : ℕ → Byte

/-- `buf_init`, for what `malloc` has given. -/
def bufInit (data : ℕ → Byte) (size : ℕ) : CircbufT := ⟨0, size, 0, 0, data⟩

/-- The place behind a place, after the check of the bounds. -/
def advance (buf : CircbufT) (p : ℕ) : ℕ := if p + 1 = buf.totalsize then 0 else p + 1

/-- The loop of `buf_pop`: the bytes, and `p` behind them. -/
def popLoop (buf : CircbufT) : ℕ → ℕ → List Byte × ℕ
  | 0, p => ([], p)
  | n + 1, p =>
    let r := popLoop buf n (advance buf p)
    (buf.data p :: r.1, r.2)

/-- `buf_pop`. -/
def bufPop (buf : CircbufT) (len : ℕ) : CircbufT × List Byte :=
  let len := if buf.size < len then buf.size else len
  let r := popLoop buf len buf.top
  ({ buf with top := r.2, size := buf.size - len }, r.1)

/-- A round of the loop of `buf_push`, with `p`. -/
def pushByte (s : CircbufT × ℕ) (x : Byte) : CircbufT × ℕ :=
  let buf := { s.1 with data := Function.update s.1.data s.2 x }
  let p := advance buf s.2
  if buf.size < buf.totalsize then ({ buf with size := buf.size + 1 }, p)
  else ({ buf with top := advance buf buf.top }, p)

/-- `buf_push`. -/
def bufPush (buf : CircbufT) (src : List Byte) : CircbufT :=
  let r := src.foldl pushByte (buf, buf.tail)
  { r.1 with tail := r.2 }

/-! ### Calls -/

/-- A call. -/
inductive Call where
  | push (src : List Byte)
  | pop (len : ℕ)

/-- The buffer after some calls, and the bytes that they have returned. -/
def exec : CircbufT → List Call → CircbufT × List (List Byte)
  | buf, [] => (buf, [])
  | buf, .push src :: calls =>
    let r := exec (bufPush buf src) calls
    (r.1, [] :: r.2)
  | buf, .pop len :: calls =>
    let r := exec (bufPop buf len).1 calls
    (r.1, (bufPop buf len).2 :: r.2)

/-- The last `cap` bytes of a queue. -/
def keep (cap : ℕ) (q : List Byte) : List Byte := q.drop (q.length - cap)

/-- The calls on a queue that keeps `cap` bytes. -/
def queueExec (cap : ℕ) : List Byte → List Call → List Byte × List (List Byte)
  | q, [] => (q, [])
  | q, .push src :: calls =>
    let r := queueExec cap (keep cap (q ++ src)) calls
    (r.1, [] :: r.2)
  | q, .pop len :: calls =>
    let r := queueExec cap (q.drop len) calls
    (r.1, q.take len :: r.2)

/-- The buffer is a queue, with `p` behind its last byte; bytes behind the data area are not
written. -/
structure Represents (cap : ℕ) (data : ℕ → Byte) (buf : CircbufT) (p : ℕ) (q : List Byte) :
    Prop where
  totalsize : buf.totalsize = cap
  size : buf.size = q.length
  size_le : buf.size ≤ cap
  top : buf.top < cap
  tail : p = (buf.top + buf.size) % cap
  bytes : Ring.Holds buf.data cap buf.top q
  outside : ∀ a, cap ≤ a → buf.data a = data a

variable {cap p n : ℕ} {data : ℕ → Byte} {buf : CircbufT} {q : List Byte}

theorem keep_of_le (h : q.length ≤ cap) :
  keep cap q = q
  := by rw [keep, Nat.sub_eq_zero_of_le h, List.drop_zero]

theorem keep_append (cap : ℕ) (q ℓ : List Byte) :
  keep cap (keep cap q ++ ℓ) = keep cap (q ++ ℓ)
  := by
  obtain hle | hle := Nat.le_total q.length cap
  · rw [keep_of_le hle]
  · have hlength : (keep cap q).length = cap := by
      rw [keep, List.length_drop]
      omega
    rw [keep, List.length_append, hlength, Nat.add_sub_cancel_left, keep, keep, List.length_append]
    rw [← List.drop_append_of_le_length (Nat.sub_le _ _), List.drop_drop]
    congr 1
    omega

theorem Represents.advance_eq (h : Represents cap data buf p q) (a : ℕ) :
  advance buf a = Ring.next cap a
  := by rw [advance, h.totalsize, Ring.next]

theorem Represents.tail_lt (h : Represents cap data buf p q) :
  p < cap
  := by
  rw [h.tail]
  exact Nat.mod_lt _ (Nat.zero_lt_of_lt h.top)

/-- A byte is pushed. -/
theorem Represents.push (h : Represents cap data buf p q) (x : Byte) :
  Represents cap data (pushByte (buf, p) x).1 (pushByte (buf, p) x).2 (keep cap (q ++ [x]))
  := by
  have hp := h.tail_lt
  have hadvance : ∀ a, advance { buf with data := Function.update buf.data p x } a
      = Ring.next cap a := h.advance_eq
  have hout : ∀ a, cap ≤ a → Function.update buf.data p x a = data a := by
    intro a ha
    rw [Function.update_of_ne (by omega)]
    apply h.outside a ha
  have htail := h.tail
  rw [h.size] at htail
  dsimp only [pushByte]
  rw [hadvance, hadvance, h.totalsize]
  split
  case isTrue hlt =>
    have hlength : q.length < cap := by
      rw [← h.size]
      exact hlt
    have hkeep : keep cap (q ++ [x]) = q ++ [x] := by
      apply keep_of_le
      rw [List.length_append]
      exact hlength
    rw [hkeep]
    refine ⟨rfl, ?_, hlt, h.top, ?_, ?_, hout⟩
    · rw [List.length_append, h.size]
      rfl
    · rw [Ring.next_eq_mod hp, htail, Nat.mod_add_mod, h.size]
      rfl
    · rw [htail]
      apply h.bytes.snoc h.top hlength
  case isFalse hfull =>
    -- The oldest byte is written over.
    have hlength : q.length = cap := by
      have hle := h.size_le
      rw [h.size] at hle hfull
      omega
    have htop : p = buf.top := by
      rw [htail, hlength, Ring.mod_succ h.top]
    have hsize := h.size
    have hbytes := h.bytes
    cases q with
    | nil =>
      rw [List.length_nil] at hlength
      omega
    | cons y q =>
      rw [List.length_cons] at hlength
      have hkeep : keep cap (y :: q ++ [x]) = q ++ [x] := by
        rw [keep, List.cons_append, List.length_cons, List.length_append, List.length_singleton,
          hlength, Nat.add_sub_cancel_left]
        rfl
      have hslot : (Ring.next cap buf.top + q.length) % cap = p := by
        rw [Ring.next_add_mod h.top, hlength, Ring.mod_succ h.top, htop]
      rw [hkeep]
      refine ⟨rfl, ?_, h.size_le, Ring.next_lt h.top, ?_, ?_, hout⟩
      · rw [hsize, List.length_append]
        rfl
      · rw [hsize, List.length_cons, hlength, Ring.mod_succ (Ring.next_lt h.top), htop]
      · have hsnoc := hbytes.2.snoc (Ring.next_lt h.top) (by omega) x
        rwa [hslot] at hsnoc

/-- **`buf_push`** appends to the queue. -/
theorem Represents.bufPush (h : Represents cap data buf buf.tail q) (src : List Byte) :
  Represents cap data (bufPush buf src) (bufPush buf src).tail (keep cap (q ++ src))
  := by
  have hloop : ∀ (src : List Byte) (buf : CircbufT) (p : ℕ) (q : List Byte),
      Represents cap data buf p q →
      Represents cap data (src.foldl pushByte (buf, p)).1 (src.foldl pushByte (buf, p)).2
        (keep cap (q ++ src)) := by
    intro src
    induction src with
    | nil =>
      intro buf p q h
      rw [List.append_nil, keep_of_le (h.size ▸ h.size_le)]
      exact h
    | cons x src ih =>
      intro buf p q h
      have hrest := ih _ _ _ (h.push x)
      rw [keep_append, List.append_assoc, List.singleton_append] at hrest
      exact hrest
  exact { hloop src buf buf.tail q h with }

/-- The bytes from the top on. -/
theorem popLoop_eq (htotal : buf.totalsize = cap) (hp : p < cap)
    (h : Ring.Holds buf.data cap p q) (hn : n ≤ q.length) :
  popLoop buf n p = (q.take n, (p + n) % cap) ∧ Ring.Holds buf.data cap ((p + n) % cap) (q.drop n)
  := by
  induction n generalizing p q with
  | zero =>
    rw [Nat.add_zero, Nat.mod_eq_of_lt hp]
    exact ⟨rfl, h⟩
  | succ n ih =>
    cases q with
    | nil => cases hn
    | cons x q =>
      have hadvance : advance buf p = Ring.next cap p := by rw [advance, htotal, Ring.next]
      obtain ⟨hloop, hrest⟩ := ih (Ring.next_lt hp) h.2 (Nat.le_of_succ_le_succ hn)
      rw [Ring.next_add_mod hp] at hloop hrest
      rw [popLoop, hadvance, hloop, h.1]
      exact ⟨rfl, hrest⟩

/-- **`buf_pop`** takes the oldest bytes. -/
theorem Represents.bufPop (h : Represents cap data buf buf.tail q) (len : ℕ) :
  (bufPop buf len).2 = q.take len
    ∧ Represents cap data (bufPop buf len).1 (bufPop buf len).1.tail (q.drop len)
  := by
  have hlen : (if buf.size < len then buf.size else len) = min q.length len := by
    rw [h.size]
    split
    · omega
    · omega
  have htop := h.top
  obtain ⟨hloop, hrest⟩ := popLoop_eq h.totalsize htop h.bytes (Nat.min_le_left q.length len)
  dsimp only [Circbuf.bufPop]
  rw [hlen, hloop]
  have htake : q.take (min q.length len) = q.take len := by
    rw [Nat.min_comm, ← List.take_eq_take_min]
  have hdrop : q.drop (min q.length len) = q.drop len := by
    obtain hle | hle := Nat.le_total q.length len
    · rw [Nat.min_eq_left hle, List.drop_length, List.drop_eq_nil_of_le hle]
    · rw [Nat.min_eq_right hle]
  refine ⟨htake, h.totalsize, ?_, ?_, ?_, ?_, ?_, h.outside⟩
  · dsimp only
    rw [List.length_drop, h.size]
    omega
  · have hle := h.size_le
    dsimp only
    omega
  · exact Nat.mod_lt _ (Nat.zero_lt_of_lt htop)
  · have htail := h.tail
    have hsize := h.size
    dsimp only
    rw [htail, Nat.mod_add_mod]
    congr 1
    omega
  · rw [← hdrop]
    exact hrest

/-- A new buffer is an empty queue. -/
theorem represents_bufInit (hpos : 0 < cap) :
  Represents cap data (bufInit data cap) (bufInit data cap).tail []
  := ⟨rfl, rfl, Nat.zero_le _, hpos, (Nat.zero_mod cap).symm, trivial, fun _ _ => rfl⟩

/-- The run rule: from a queue on. -/
theorem Represents.exec (h : Represents cap data buf buf.tail q) (calls : List Call) :
  (exec buf calls).2 = (queueExec cap q calls).2
    ∧ Represents cap data (exec buf calls).1 (exec buf calls).1.tail (queueExec cap q calls).1
  := by
  induction calls generalizing buf q with
  | nil => exact ⟨rfl, h⟩
  | cons call calls ih =>
    cases call with
    | push src =>
      obtain ⟨hout, hrep⟩ := ih (h.bufPush src)
      exact ⟨congrArg ([] :: ·) hout, hrep⟩
    | pop len =>
      obtain ⟨hbytes, hnext⟩ := h.bufPop len
      obtain ⟨hout, hrep⟩ := ih hnext
      refine ⟨?_, hrep⟩
      rw [Circbuf.exec, queueExec]
      dsimp only
      rw [hout, hbytes]

/-- **A circular buffer** is a queue that keeps the last `cap` bytes. -/
theorem exec_fifo (data : ℕ → Byte) (hpos : 0 < cap) (calls : List Call) :
  (exec (bufInit data cap) calls).2 = (queueExec cap [] calls).2
    ∧ Represents cap data (exec (bufInit data cap) calls).1
      (exec (bufInit data cap) calls).1.tail (queueExec cap [] calls).1
  := (represents_bufInit hpos).exec calls

theorem exec_fifo_four :
  (exec (bufInit (fun _ => 0) 4) [.push [1, 2, 3], .pop 1, .push [4, 5, 6], .pop 9]).2
    = [[], [1], [], [3, 4, 5, 6]]
  := (exec_fifo (fun _ => 0) (by decide) _).1

end Circbuf
