import UBoot.Env.Data

/-!
# Edits of the environment data area

The loops with which `_do_setenv` and `fw_setenv` change the area in place: deleting an
entry shifts the entries after it to the front (`shiftDown`), and a new entry is copied
behind the last one (`copyStr`, `copyArgs`).  For each of them, what the area holds
afterwards and which cells keep their contents.
-/

namespace Env

open Memory

/-! ### Deleting -/

/-- The loop that moves the bytes from `nxt` on down to `env`, up to the first NUL of the
double NUL; it also returns the place of that NUL. -/
def shiftDown : ℕ → (ℕ → Byte) → ℕ → ℕ → Option ((ℕ → Byte) × ℕ)
  | 0, _, _, _ => none
  | n + 1, d, env, nxt =>
    let d := Function.update d env (d nxt)
    if d env = 0 ∧ d (nxt + 1) = 0 then some (d, env)
    else shiftDown n d (env + 1) (nxt + 1)

theorem shiftDown_eq {n : ℕ} {d : ℕ → Byte} {env nxt : ℕ} {w : List Byte} (hlt : env < nxt)
    (h : Holds d nxt (w ++ [0, 0])) (hw : Spaced (w ++ [0])) (hn : w.length < n) :
  ∃ d', shiftDown n d env nxt = some (d', env + w.length)
    ∧ Holds d' env (w ++ [0]) ∧ ∀ q, q < env ∨ env + w.length < q → d' q = d q
  := by
  induction w generalizing n d env nxt with
  | nil =>
    obtain ⟨n, rfl⟩ := Nat.exists_eq_succ_of_ne_zero (Nat.ne_zero_of_lt hn)
    simp only [List.nil_append, holds_cons] at h
    have h1 : Function.update d env (0 : Byte) (nxt + 1) = 0 := by
      rw [Function.update_of_ne (by omega), h.2.1]
    refine ⟨Function.update d env 0, ?_, ?_, ?_⟩
    · simp [shiftDown, h.1, h1]
    · simp
    · intro q hq
      rw [Function.update_of_ne]
      simp only [List.length_nil] at hq
      omega
  | cons c w ih =>
    obtain ⟨n, rfl⟩ := Nat.exists_eq_succ_of_ne_zero (Nat.ne_zero_of_lt hn)
    rw [List.cons_append, holds_cons] at h
    rw [List.length_cons] at hn ⊢
    -- the next cell is read after the write, but lies behind it
    have hrest : Holds (Function.update d env c) (nxt + 1) (w ++ [0, 0]) := by
      apply h.2.congr
      intro q hq _
      apply Function.update_of_ne
      omega
    have hstop : ¬ (c = 0 ∧ Function.update d env c (nxt + 1) = 0) := by
      cases w with
      | nil =>
        simp only [Spaced, List.cons_append, List.nil_append, List.isChain_cons_cons] at hw
        exact fun h' => hw.1 ⟨h'.1, trivial⟩
      | cons b w =>
        simp only [Spaced, List.cons_append, List.isChain_cons_cons] at hw
        rw [List.cons_append, holds_cons] at hrest
        rw [hrest.1]
        apply hw.1
    obtain ⟨d', hd', hholds, hframe⟩ :=
      ih (Nat.succ_lt_succ hlt) hrest hw.tail (Nat.lt_of_succ_lt_succ hn)
    refine ⟨d', ?_, ?_, ?_⟩
    · rw [Nat.succ_eq_add_one, shiftDown, h.1]
      simp only [Function.update_self, if_neg hstop, hd']
      congr 2
      omega
    · rw [List.cons_append, holds_cons, hframe env (by omega), Function.update_self]
      exact ⟨rfl, hholds⟩
    · intro q hq
      rw [hframe q (by omega), Function.update_of_ne (by omega)]

/-! ### Copying -/

/-- `while ((*env = *s++) != '\0') env++`: copy the string `s` with its NUL, and return
the place of the NUL. -/
def copyStr : (ℕ → Byte) → ℕ → List Byte → (ℕ → Byte) × ℕ
  | d, env, [] => (Function.update d env 0, env)
  | d, env, c :: s => copyStr (Function.update d env c) (env + 1) s

theorem copyStr_eq (d : ℕ → Byte) (env : ℕ) (s : List Byte) :
  copyStr d env s = (store d env (s ++ [0]), env + s.length)
  := by
  induction s generalizing d env with
  | nil => rfl
  | cons c s ih =>
    rw [copyStr, ih, List.cons_append, store, List.length_cons,
      show env + 1 + s.length = env + (s.length + 1) by omega]

/-- The arguments of a value, joined by single blanks. -/
def join : List (List Byte) → List Byte
  | [] => []
  | [a] => a
  | a :: b :: as => a ++ blank :: join (b :: as)

theorem isStr_join {args : List (List Byte)} (h : ∀ a ∈ args, IsStr a) :
  IsStr (join args)
  := by
  induction args using join.induct with
  | case1 => simp [join, IsStr]
  | case2 a => simpa [join] using h
  | case3 a b as ih =>
    have ha := h a (by simp)
    have hrest := ih fun x hx => h x (List.mem_cons_of_mem a hx)
    simp only [IsStr, join, List.mem_append, List.mem_cons, not_or] at *
    exact ⟨ha, by decide, hrest⟩

/-- The loop over the arguments: `*env` becomes `sep` (`=` before the first argument, a
blank before the others), and the argument is copied behind it. -/
def copyArgs : (ℕ → Byte) → ℕ → Byte → List (List Byte) → (ℕ → Byte) × ℕ
  | d, env, _, [] => (d, env)
  | d, env, sep, a :: args =>
    let r := copyStr (Function.update d env sep) (env + 1) a
    copyArgs r.1 r.2 blank args

theorem copyArgs_eq (d : ℕ → Byte) (env : ℕ) (sep : Byte) (a : List Byte)
    (args : List (List Byte)) :
  ∃ d', copyArgs d env sep (a :: args) = (d', env + (join (a :: args)).length + 1)
    ∧ Holds d' env (sep :: join (a :: args) ++ [0])
    ∧ ∀ q, q < env ∨ env + (join (a :: args)).length + 1 < q → d' q = d q
  := by
  induction args generalizing d env sep a with
  | nil =>
    refine ⟨store (Function.update d env sep) (env + 1) (a ++ [0]), ?_, ?_, ?_⟩
    · rw [copyArgs, copyStr_eq, copyArgs, join]
      congr 1
      omega
    · rw [List.cons_append, holds_cons]
      constructor
      · rw [store_of_lt _ (by omega), Function.update_self]
      · apply holds_store
    · intro q hq
      rw [join] at hq
      obtain hq | hq := hq
      · rw [store_of_lt _ (by omega), Function.update_of_ne (by omega)]
      · rw [store_of_le, Function.update_of_ne (by omega)]
        rw [List.length_append, List.length_singleton]
        omega
  | cons b args ih =>
    have hlen : (join (a :: b :: args)).length = a.length + 1 + (join (b :: args)).length := by
      simp only [join, List.length_append, List.length_cons]
      omega
    obtain ⟨d', hd', hholds, hframe⟩ :=
      ih (store (Function.update d env sep) (env + 1) (a ++ [0])) (env + 1 + a.length) blank b
    refine ⟨d', ?_, ?_, ?_⟩
    · rw [copyArgs, copyStr_eq, hd', hlen]
      congr 1
      omega
    · -- the blank overwrites the NUL of `a`; the cells before it stay
      have hsep : d' env = sep := by
        rw [hframe env (by omega), store_of_lt _ (by omega), Function.update_self]
      have ha : Holds d' (env + 1) a := by
        apply (holds_append.mp (holds_store (Function.update d env sep) (env + 1) (a ++ [0]))).1.congr
        intro q _ hq
        apply hframe
        omega
      rw [join, List.cons_append, holds_cons, List.append_assoc, holds_append]
      exact ⟨hsep, ha, hholds⟩
    · intro q hq
      rw [hlen] at hq
      rw [hframe q (by omega)]
      obtain hq | hq := hq
      · rw [store_of_lt _ (by omega), Function.update_of_ne (by omega)]
      · rw [store_of_le, Function.update_of_ne (by omega)]
        rw [List.length_append, List.length_singleton]
        omega

/-- The new definition of `name` copied to `env`, with the second NUL behind it. -/
def appendVar (d : ℕ → Byte) (env : ℕ) (name : List Byte) (args : List (List Byte)) :
    ℕ → Byte :=
  let r := copyStr d env name
  let r := copyArgs r.1 r.2 equals args
  Function.update r.1 (r.2 + 1) 0

/-- The room the new definition is checked for: `strlen(name) + 2`, and one more than its
length for every argument. -/
def newLen (name : List Byte) (args : List (List Byte)) : ℕ :=
  name.length + 2 + (args.map fun a => a.length + 1).sum

theorem newLen_cons (name a : List Byte) (args : List (List Byte)) :
  newLen name (a :: args) = name.length + (join (a :: args)).length + 3
  := by
  have h : ((a :: args).map fun a => a.length + 1).sum = (join (a :: args)).length + 1 := by
    induction args generalizing a with
    | nil => simp [join]
    | cons b args ih =>
      rw [List.map_cons, List.sum_cons, ih b]
      simp only [join, List.length_append, List.length_cons]
      omega
  rw [newLen, h]
  omega

theorem appendVar_eq (d : ℕ → Byte) (env : ℕ) (name a : List Byte) (args : List (List Byte)) :
  Holds (appendVar d env name (a :: args)) env (name ++ equals :: join (a :: args) ++ [0, 0])
    ∧ ∀ q, q < env ∨ env + newLen name (a :: args) ≤ q →
        appendVar d env name (a :: args) q = d q
  := by
  obtain ⟨d', hd', hholds, hframe⟩ :=
    copyArgs_eq (store d env (name ++ [0])) (env + name.length) equals a args
  have heq : appendVar d env name (a :: args)
      = Function.update d' (env + name.length + (join (a :: args)).length + 2) 0 := by
    rw [appendVar, copyStr_eq, hd']
  rw [heq, newLen_cons]
  constructor
  · have hname : Holds d' env name := by
      apply (holds_append.mp (holds_store d env (name ++ [0]))).1.congr
      intro q _ hq
      apply hframe
      omega
    rw [List.append_assoc, holds_append]
    constructor
    · apply hname.congr
      intro q _ hq
      apply Function.update_of_ne
      omega
    · rw [show ([0, 0] : List Byte) = [0] ++ [0] from rfl, ← List.append_assoc, holds_append]
      constructor
      · apply hholds.congr
        intro q _ hq
        apply Function.update_of_ne
        simp only [List.length_append, List.length_cons, List.length_nil] at hq
        omega
      · rw [holds_cons, List.length_append, List.length_cons, List.length_singleton]
        refine ⟨?_, trivial⟩
        rw [show env + name.length + ((join (a :: args)).length + 1 + 1)
          = env + name.length + (join (a :: args)).length + 2 by omega, Function.update_self]
  · intro q hq
    rw [Function.update_of_ne (by omega), hframe q (by omega)]
    obtain hq | hq := hq
    · rw [store_of_lt _ (by omega)]
    · rw [store_of_le]
      rw [List.length_append, List.length_singleton]
      omega

/-! ### Edits of the entries -/

theorem holds_encode {d : ℕ → Byte} {es : List Entry} (hne : es ≠ [])
    (h : Holds d 0 (flatten es ++ [0])) :
  Holds d 0 (encode es)
  := by
  cases es with
  | nil => contradiction
  | cons e es => exact h

/-- The entries end in a NUL that no other NUL precedes. -/
theorem exists_flatten_eq {es : List Entry} (hne : es ≠ []) :
  ∃ w, flatten es = w ++ [0] ∧ Spaced (w ++ [0])
  := by
  have hs := spaced_flatten es
  induction es using List.reverseRecOn with
  | nil => contradiction
  | append_singleton es e _ =>
    have heq : flatten (es ++ [e]) = (flatten es ++ e.bytes) ++ [0] := by
      rw [flatten_append]
      simp
    rw [heq] at hs ⊢
    use flatten es ++ e.bytes

/-- Where the scan for the double NUL ends, and the step behind the last NUL when there
is an entry before it, is where the entries end. -/
theorem endScan_encode {d : ℕ → Byte} {es : List Entry} {n : ℕ} (h : Holds d 0 (encode es))
    (hn : (encode es).length ≤ n) :
  ∃ env, endScan d n 0 = some env
    ∧ (if env > 0 then env + 1 else env) = (flatten es).length
  := by
  cases es with
  | nil =>
    use 0
    constructor
    · apply endScan_eq (w := []) h
      · simp [Spaced]
      · simp only [encode, List.length_cons, List.length_nil] at hn
        simp only [List.length_nil]
        omega
    · simp
  | cons e es =>
    obtain ⟨w, hw, hs⟩ := exists_flatten_eq (List.cons_ne_nil e es)
    have hpos : 0 < w.length := by
      have hb := List.length_pos_iff.mpr e.bytes_ne_nil
      have hl := congrArg List.length hw
      simp only [flatten_cons, List.length_append, List.length_cons, List.length_nil] at hl
      omega
    rw [encode, hw] at h hn
    rw [hw]
    use w.length
    constructor
    · rw [endScan_eq (w := w) _ hs, Nat.zero_add]
      · simp only [List.length_append, List.length_singleton] at hn
        omega
      · simpa using h
    · simp [hpos]

/-- Shifting the entries after `e` over it, and closing them with a NUL, deletes `e`. -/
theorem shiftDown_flatten {d : ℕ → Byte} {es₁ es₂ : List Entry} {e : Entry} {n : ℕ}
    (hne : es₂ ≠ []) (h : Holds d 0 (flatten (es₁ ++ e :: es₂) ++ [0]))
    (hn : (flatten es₂).length ≤ n) :
  ∃ d' k, shiftDown n d (flatten es₁).length ((flatten es₁).length + e.bytes.length + 1)
      = some (d', k)
    ∧ Holds (Function.update d' (k + 1) 0) 0 (flatten (es₁ ++ es₂) ++ [0])
    ∧ ∀ q, (flatten (es₁ ++ e :: es₂)).length ≤ q → Function.update d' (k + 1) 0 q = d q
  := by
  obtain ⟨w, hw, hs⟩ := exists_flatten_eq hne
  simp only [flatten_append, flatten_cons, List.append_assoc, List.cons_append] at h ⊢
  rw [holds_append, holds_append, holds_cons, hw, Nat.zero_add] at h
  obtain ⟨h₁, he, -, h₂⟩ := h
  have hlen : (flatten es₂).length = w.length + 1 := by
    rw [hw, List.length_append, List.length_singleton]
  have hlt : (flatten es₁).length < (flatten es₁).length + e.bytes.length + 1 := by omega
  obtain ⟨d', hd', hholds, hframe⟩ :=
    shiftDown_eq (n := n) hlt (by simpa using h₂) hs (by omega)
  refine ⟨d', _, hd', ?_, ?_⟩
  · rw [holds_append, Nat.zero_add]
    constructor
    · apply h₁.congr
      intro q _ hq
      rw [Function.update_of_ne (by omega), hframe q (by omega)]
    · rw [hw, holds_append]
      constructor
      · apply hholds.congr
        intro q _ hq
        apply Function.update_of_ne
        rw [List.length_append, List.length_singleton] at hq
        omega
      · rw [holds_cons, List.length_append, List.length_singleton, ← Nat.add_assoc]
        exact ⟨Function.update_self .., trivial⟩
  · intro q hq
    simp only [List.length_append, List.length_cons] at hq
    rw [Function.update_of_ne (by omega), hframe q (by omega)]

/-- Copying a new definition behind the entries appends it to them. -/
theorem appendVar_encode {d : ℕ → Byte} {es : List Entry} {a : List Byte}
    {args : List (List Byte)} (e : Entry) (he : e.value = join (a :: args))
    (h : Holds d 0 (flatten es)) :
  Holds (appendVar d (flatten es).length e.name (a :: args)) 0 (encode (es ++ [e]))
  := by
  obtain ⟨hholds, hframe⟩ := appendVar_eq d (flatten es).length e.name a args
  apply holds_encode (by simp)
  rw [flatten_append, flatten_cons, flatten_nil, List.append_assoc, holds_append, Nat.zero_add]
  constructor
  · apply h.congr
    intro q _ hq
    apply hframe
    omega
  · rw [Entry.bytes, he]
    simpa using hholds

end Env
