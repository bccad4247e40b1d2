import UBoot.Lib.Memory

/-!
# The environment data area

The environment is a list of NUL-terminated strings `name=value`, one after the other,
whose end is marked by a second NUL.  `encode es` is the byte string of the entries
`es`, and `WellFormed size d es` says that the area `d` of `size` bytes begins with it.

The scans of `common/cmd_nvedit.c` over the area are `strEnd`, `endScan`, `envmatch`
and `getenv`.  A scan whose loop has no bound in the source carries a number of steps
it may take; it returns `none` when they are used up.
-/

namespace Env

open Memory

/-- The character `=` between a name and its value. -/
def equals : Byte := 61

/-- The character put between the arguments of a value. -/
def blank : Byte := 32

/-! ### Entries -/

/-- A string that a C program can pass: it does not contain its own terminator. -/
def IsStr (s : List Byte) : Prop := 0 ∉ s

instance (s : List Byte) : Decidable (IsStr s) :=
  inferInstanceAs (Decidable (0 ∉ s))

/-- A variable name: a string without `=`. -/
def IsName (s : List Byte) : Prop := IsStr s ∧ equals ∉ s

instance (s : List Byte) : Decidable (IsName s) :=
  inferInstanceAs (Decidable (IsStr s ∧ equals ∉ s))

/-- A variable with its value. -/
structure Entry where
  name : List Byte
  value : List Byte
  isName : IsName name
  isStr : IsStr value

/-- The string `name=value` of an entry. -/
def Entry.bytes (e : Entry) : List Byte := e.name ++ equals :: e.value

theorem Entry.isStr_bytes (e : Entry) :
  IsStr e.bytes
  := by
  have hn := e.isName.1
  have hv := e.isStr
  simp only [IsStr, bytes, List.mem_append, List.mem_cons, not_or] at *
  exact ⟨hn, by decide, hv⟩

theorem Entry.bytes_ne_nil (e : Entry) :
  e.bytes ≠ []
  := by
  simp [bytes]

/-- The entries, each followed by its NUL. -/
def flatten (es : List Entry) : List Byte := es.flatMap fun e => e.bytes ++ [0]

@[simp]
theorem flatten_nil :
  flatten [] = []
  := rfl

@[simp]
theorem flatten_cons (e : Entry) (es : List Entry) :
  flatten (e :: es) = e.bytes ++ 0 :: flatten es
  := by
  simp [flatten]

theorem flatten_append (es es' : List Entry) :
  flatten (es ++ es') = flatten es ++ flatten es'
  := by
  simp [flatten]

/-- The area of the entries `es` up to and including the double NUL. -/
def encode : List Entry → List Byte
  | [] => [0, 0]
  | e :: es => flatten (e :: es) ++ [0]

/-- The area `d` of `size` bytes holds the entries `es`, with distinct names, up to a
double NUL inside the area. -/
structure WellFormed (size : ℕ) (d : ℕ → Byte) (es : List Entry) : Prop where
  nodup : (es.map Entry.name).Nodup
  fits : (encode es).length ≤ size
  holds : Holds d 0 (encode es)

/-- The variable `name` of the entries `es`. -/
def lookup (es : List Entry) (name : List Byte) : Option (List Byte) :=
  (es.find? fun e => e.name = name).map Entry.value

/-- The entries other than `name`. -/
def others (es : List Entry) (name : List Byte) : List Entry :=
  es.filter fun e => e.name ≠ name

/-! ### Scans -/

/-- The end of the string at `p`, `for (nxt = p; *nxt; ++nxt)`, in at most `n` steps. -/
def strEnd (d : ℕ → Byte) : ℕ → ℕ → Option ℕ
  | 0, _ => none
  | n + 1, p => if d p = 0 then some p else strEnd d n (p + 1)

/-- The string at `p`, of fewer than `n` characters. -/
def strAt (d : ℕ → Byte) (n p : ℕ) : Option (List Byte) :=
  (strEnd d n p).map fun e => read d p (e - p)

/-- The first of the two NULs that end the environment,
`for (env = env_data; *env || *(env + 1); ++env)`, in at most `n` steps from `p`. -/
def endScan (d : ℕ → Byte) : ℕ → ℕ → Option ℕ
  | 0, _ => none
  | n + 1, p => if d p = 0 ∧ d (p + 1) = 0 then some p else endScan d n (p + 1)

/-- The strings of the area from `p` on, up to the first empty one. -/
def decode (d : ℕ → Byte) (size : ℕ) : ℕ → ℕ → Option (List (List Byte))
  | 0, _ => none
  | n + 1, p =>
    if d p = 0 then some []
    else do
      let e ← strEnd d size p
      let rest ← decode d size n (e + 1)
      some (read d p (e - p) :: rest)

/-- `envmatch`: the index of the value when the entry at `i2` has the name `s1`.  The
outer `none` is a comparison that runs past the NUL of `s1`. -/
def envmatch (d : ℕ → Byte) : List Byte → ℕ → Option (Option ℕ)
  | [], i2 =>
    if d i2 = 0 then none
    else some (if d i2 = equals then some (i2 + 1) else none)
  | c :: s1, i2 =>
    if c = d i2 then
      if c = equals then some (some (i2 + 1)) else envmatch d s1 (i2 + 1)
    else some none

/-- The loop of `getenv` from the entry at `i` on, in at most `n` rounds.  The inner loop
gives up with `NULL` once it has left `CONFIG_ENV_SIZE`, here `size`. -/
def getenvFrom (d : ℕ → Byte) (size : ℕ) (name : List Byte) : ℕ → ℕ → Option (Option ℕ)
  | 0, _ => none
  | n + 1, i =>
    if d i = 0 then some none
    else
      match strEnd d (size + 1 - i) i with
      | none => some none
      | some nxt => do
        match ← envmatch d name i with
        | some val => some (some val)
        | none => getenvFrom d size name n (nxt + 1)

/-- `getenv`: the index of the value of `name`, `none` for `NULL`. -/
def getenv (d : ℕ → Byte) (size : ℕ) (name : List Byte) : Option (Option ℕ) :=
  getenvFrom d size name (size + 2) 0

/-- The string `getenv` points to. -/
def getenvStr (d : ℕ → Byte) (size : ℕ) (name : List Byte) : Option (Option (List Byte)) := do
  match ← getenv d size name with
  | none => some none
  | some val => (strAt d (size + 1) val).map some

/-! ### What the scans find -/

theorem strEnd_eq {d : ℕ → Byte} {n p : ℕ} {s : List Byte} (h : Holds d p (s ++ [0]))
    (hs : IsStr s) (hn : s.length < n) :
  strEnd d n p = some (p + s.length)
  := by
  induction s generalizing n p with
  | nil =>
    obtain ⟨n, rfl⟩ := Nat.exists_eq_succ_of_ne_zero (Nat.ne_zero_of_lt hn)
    simp only [List.nil_append, holds_cons] at h
    simp [strEnd, h.1]
  | cons c s ih =>
    obtain ⟨n, rfl⟩ := Nat.exists_eq_succ_of_ne_zero (Nat.ne_zero_of_lt hn)
    simp only [IsStr, List.mem_cons, not_or] at hs
    rw [List.cons_append, holds_cons] at h
    rw [List.length_cons] at hn ⊢
    rw [Nat.succ_eq_add_one, strEnd, h.1, if_neg (Ne.symm hs.1), ih h.2 hs.2 (by omega)]
    congr 1
    omega

theorem strAt_eq {d : ℕ → Byte} {n p : ℕ} {s : List Byte} (h : Holds d p (s ++ [0]))
    (hs : IsStr s) (hn : s.length < n) :
  strAt d n p = some s
  := by
  rw [strAt, strEnd_eq h hs hn, Option.map_some, Nat.add_sub_cancel_left]
  rw [(holds_append.mp h).1.read_eq]

/-- No two NULs of `ℓ` are next to each other. -/
def Spaced (ℓ : List Byte) : Prop := ℓ.IsChain fun a b => ¬ (a = 0 ∧ b = 0)

theorem endScan_eq {d : ℕ → Byte} {n p : ℕ} {w : List Byte} (h : Holds d p (w ++ [0, 0]))
    (hw : Spaced (w ++ [0])) (hn : w.length < n) :
  endScan d n p = some (p + w.length)
  := by
  induction w generalizing n p with
  | nil =>
    obtain ⟨n, rfl⟩ := Nat.exists_eq_succ_of_ne_zero (Nat.ne_zero_of_lt hn)
    simp only [List.nil_append, holds_cons] at h
    simp [endScan, h.1, h.2.1]
  | cons c w ih =>
    obtain ⟨n, rfl⟩ := Nat.exists_eq_succ_of_ne_zero (Nat.ne_zero_of_lt hn)
    rw [List.cons_append, holds_cons] at h
    rw [List.length_cons] at hn ⊢
    have hc : ¬ (d p = 0 ∧ d (p + 1) = 0) := by
      cases w with
      | nil =>
        simp only [Spaced, List.cons_append, List.nil_append, List.isChain_cons_cons] at hw
        rw [h.1]
        exact fun h' => hw.1 ⟨h'.1, trivial⟩
      | cons b w =>
        simp only [Spaced, List.cons_append, List.isChain_cons_cons] at hw
        rw [List.cons_append, holds_cons] at h
        rw [h.1, h.2.1]
        apply hw.1
    rw [Nat.succ_eq_add_one, endScan, if_neg hc, ih h.2 hw.tail (by omega)]
    congr 1
    omega

theorem spaced_str {s : List Byte} (hs : IsStr s) :
  Spaced (s ++ [0])
  := by
  induction s with
  | nil => simp [Spaced]
  | cons c s ih =>
    simp only [IsStr, List.mem_cons, not_or] at hs
    have hs' := ih hs.2
    cases s with
    | nil =>
      simp only [Spaced, List.cons_append, List.nil_append, List.isChain_cons_cons]
      exact ⟨fun h => hs.1 h.1.symm, hs'⟩
    | cons b s =>
      simp only [Spaced, List.cons_append, List.isChain_cons_cons] at hs' ⊢
      exact ⟨fun h => hs.1 h.1.symm, hs'⟩

theorem spaced_flatten (es : List Entry) :
  Spaced (flatten es)
  := by
  induction es with
  | nil => simp [Spaced]
  | cons e es ih =>
    rw [flatten_cons, ← List.singleton_append, ← List.append_assoc]
    apply List.IsChain.append (spaced_str e.isStr_bytes) ih
    intro x _ y hy
    cases es with
    | nil => simp at hy
    | cons e' es =>
      rw [flatten_cons, List.head?_append_of_ne_nil _ e'.bytes_ne_nil] at hy
      rintro ⟨-, rfl⟩
      apply e'.isStr_bytes
      apply List.mem_of_head? hy


/-- On an entry with the name `k`, `envmatch` finds the value exactly when `name` is
`k`: neither of the two names contains `=`, so neither runs past the other. -/
theorem envmatch_eq {d : ℕ → Byte} {name k v : List Byte} {p : ℕ}
    (hname : IsName name) (hk : IsName k) (h : Holds d p (k ++ equals :: v)) :
  envmatch d name p = some (if k = name then some (p + k.length + 1) else none)
  := by
  induction name generalizing k p with
  | nil =>
    cases k with
    | nil =>
      rw [List.nil_append, holds_cons] at h
      simp [envmatch, h.1, equals]
    | cons b k =>
      rw [List.cons_append, holds_cons] at h
      simp only [IsName, IsStr, List.mem_cons, not_or] at hk
      simp [envmatch, h.1, Ne.symm hk.1.1, Ne.symm hk.2.1]
  | cons c name ih =>
    simp only [IsName, IsStr, List.mem_cons, not_or] at hname
    cases k with
    | nil =>
      rw [List.nil_append, holds_cons] at h
      simp [envmatch, h.1, Ne.symm hname.2.1]
    | cons b k =>
      rw [List.cons_append, holds_cons] at h
      simp only [IsName, IsStr, List.mem_cons, not_or] at hk
      rw [envmatch, h.1]
      by_cases hcb : c = b
      · subst hcb
        rw [if_pos rfl, if_neg (Ne.symm hname.2.1),
          ih ⟨hname.1.2, hname.2.2⟩ ⟨hk.1.2, hk.2.2⟩ h.2]
        simp only [List.cons.injEq, true_and, List.length_cons]
        rw [show p + 1 + k.length + 1 = p + (k.length + 1) + 1 by omega]
      · rw [if_neg hcb, if_neg]
        simp [Ne.symm hcb]

theorem length_lt_flatten (es : List Entry) :
  es.length ≤ (flatten es).length
  := by
  induction es with
  | nil => simp
  | cons e es ih =>
    simp only [List.length_cons, flatten_cons, List.length_append]
    omega

theorem WellFormed.holds_flatten {size : ℕ} {d : ℕ → Byte} {es : List Entry}
    (h : WellFormed size d es) :
  Holds d 0 (flatten es ++ [0])
  := by
  have hh := h.holds
  cases es with
  | nil => exact ⟨hh.1, trivial⟩
  | cons e es => exact hh

theorem WellFormed.length_flatten {size : ℕ} {d : ℕ → Byte} {es : List Entry}
    (h : WellFormed size d es) :
  (flatten es).length < size
  := by
  have hf := h.fits
  cases es with
  | nil =>
    simp only [encode, List.length_cons, List.length_nil, flatten_nil] at hf ⊢
    omega
  | cons e es =>
    rw [encode, List.length_append, List.length_singleton] at hf
    omega

/-- The step of every scan: the entry at `p`, and the entries after it. -/
theorem holds_flatten_cons {d : ℕ → Byte} {p : ℕ} {e : Entry} {es : List Entry}
    (h : Holds d p (flatten (e :: es) ++ [0])) :
  d p ≠ 0 ∧ Holds d p (e.bytes ++ [0])
    ∧ Holds d (p + e.bytes.length + 1) (flatten es ++ [0])
  := by
  rw [flatten_cons, List.append_assoc, List.cons_append, ← List.singleton_append,
    ← List.append_assoc, holds_append] at h
  refine ⟨?_, h.1, ?_⟩
  · have hne := e.bytes_ne_nil
    have hs := e.isStr_bytes
    obtain ⟨c, s, hcs⟩ := List.exists_cons_of_ne_nil hne
    rw [hcs] at hs h
    simp only [IsStr, List.mem_cons, not_or] at hs
    rw [h.1.1]
    apply Ne.symm hs.1
  · have h2 := h.2
    rw [List.length_append, List.length_singleton, ← Nat.add_assoc] at h2
    apply h2

theorem decode_eq {d : ℕ → Byte} {size n p : ℕ} {es : List Entry}
    (h : Holds d p (flatten es ++ [0])) (hsize : (flatten es).length ≤ size)
    (hn : es.length < n) :
  decode d size n p = some (es.map Entry.bytes)
  := by
  induction es generalizing n p with
  | nil =>
    obtain ⟨n, rfl⟩ := Nat.exists_eq_succ_of_ne_zero (Nat.ne_zero_of_lt hn)
    rw [flatten_nil, List.nil_append, holds_cons] at h
    simp [decode, h.1]
  | cons e es ih =>
    obtain ⟨n, rfl⟩ := Nat.exists_eq_succ_of_ne_zero (Nat.ne_zero_of_lt hn)
    obtain ⟨h0, he, hes⟩ := holds_flatten_cons h
    simp only [flatten_cons, List.length_append, List.length_cons] at hsize hn
    have hend : strEnd d size p = some (p + e.bytes.length) :=
      strEnd_eq he e.isStr_bytes (by omega)
    have hread : read d p e.bytes.length = e.bytes := (holds_append.mp he).1.read_eq
    have hrest : decode d size n (p + e.bytes.length + 1) = some (es.map Entry.bytes) :=
      ih hes (by omega) (by omega)
    simp [decode, h0, hend, hread, hrest]

/-- The strings of a well-formed area are its entries. -/
theorem WellFormed.decode_eq {size : ℕ} {d : ℕ → Byte} {es : List Entry}
    (h : WellFormed size d es) :
  decode d size size 0 = some (es.map Entry.bytes)
  := by
  have hlen := h.length_flatten
  apply Env.decode_eq h.holds_flatten hlen.le
  apply lt_of_le_of_lt (length_lt_flatten es) hlen

theorem Entry.bytes_injective :
  Function.Injective Entry.bytes
  := by
  rintro ⟨n, v, hn, hv⟩ ⟨n', v', hn', hv'⟩ h
  simp only [bytes, List.append_eq_append_iff, List.cons_eq_append_iff] at h
  -- a longer one of the two names would contain the `=` of the other
  obtain ⟨w, rfl, ⟨rfl, h⟩ | ⟨u, rfl, -⟩⟩ | ⟨w, rfl, ⟨rfl, h⟩ | ⟨u, rfl, -⟩⟩ := h
  · simp_all
  · exact absurd hn'.2 (by simp)
  · simp_all
  · exact absurd hn.2 (by simp)

/-- An area is well formed with one list of entries at most. -/
theorem WellFormed.unique {size : ℕ} {d : ℕ → Byte} {es es' : List Entry}
    (h : WellFormed size d es) (h' : WellFormed size d es') :
  es = es'
  := by
  have heq := h.decode_eq.symm.trans h'.decode_eq
  exact List.map_injective_iff.mpr Entry.bytes_injective (Option.some.inj heq)

theorem lookup_cons (e : Entry) (es : List Entry) (name : List Byte) :
  lookup (e :: es) name = if e.name = name then some e.value else lookup es name
  := by
  by_cases h : e.name = name
  · simp [lookup, h]
  · simp [lookup, h]

/-- `getenv` finds what `lookup` finds: the index it returns is where the value is. -/
theorem getenvFrom_eq {d : ℕ → Byte} {p : ℕ} {es : List Entry} {name : List Byte}
    (size n : ℕ) (hname : IsName name) (h : Holds d p (flatten es ++ [0]))
    (hsize : p + (flatten es).length ≤ size) (hn : es.length < n) :
  (lookup es name = none ∧ getenvFrom d size name n p = some none)
    ∨ ∃ v i, lookup es name = some v ∧ getenvFrom d size name n p = some (some i)
        ∧ Holds d i (v ++ [0]) ∧ IsStr v ∧ v.length ≤ size
  := by
  induction es generalizing n p with
  | nil =>
    obtain ⟨n, rfl⟩ := Nat.exists_eq_succ_of_ne_zero (Nat.ne_zero_of_lt hn)
    rw [flatten_nil, List.nil_append, holds_cons] at h
    left
    simp [lookup, getenvFrom, h.1]
  | cons e es ih =>
    obtain ⟨n, rfl⟩ := Nat.exists_eq_succ_of_ne_zero (Nat.ne_zero_of_lt hn)
    obtain ⟨h0, he, hes⟩ := holds_flatten_cons h
    simp only [flatten_cons, List.length_append, List.length_cons] at hsize hn
    have hend : strEnd d (size + 1 - p) p = some (p + e.bytes.length) :=
      strEnd_eq he e.isStr_bytes (by omega)
    have hmatch := envmatch_eq hname e.isName (v := e.value) (holds_append.mp he).1
    by_cases hen : e.name = name
    · right
      refine ⟨e.value, p + e.name.length + 1, ?_, ?_, ?_, e.isStr, ?_⟩
      · rw [lookup_cons, if_pos hen]
      · simp [getenvFrom, h0, hend, hmatch, hen]
      · rw [Entry.bytes, List.append_assoc, List.cons_append, holds_append, holds_cons] at he
        apply he.2.2
      · simp only [Entry.bytes, List.length_append, List.length_cons] at hsize
        omega
    · rw [lookup_cons, if_neg hen]
      have hstep : getenvFrom d size name (n + 1) p
          = getenvFrom d size name n (p + e.bytes.length + 1) := by
        simp [getenvFrom, h0, hend, hmatch, hen]
      rw [Nat.succ_eq_add_one, hstep]
      apply ih n hes (by omega) (by omega)

/-- In a well-formed area `getenv` is the finite map of the entries. -/
theorem WellFormed.getenvStr_eq {size csize : ℕ} {d : ℕ → Byte} {es : List Entry}
    {name : List Byte} (h : WellFormed size d es) (hc : size ≤ csize) (hname : IsName name) :
  getenvStr d csize name = some (lookup es name)
  := by
  have hlen := h.length_flatten
  have hes := length_lt_flatten es
  obtain ⟨hl, hg⟩ | ⟨v, i, hl, hg, hi, hv, hvl⟩ :=
    getenvFrom_eq csize (csize + 2) hname h.holds_flatten (by omega) (by omega)
  · rw [getenvStr, getenv, hg, hl]
    rfl
  · rw [getenvStr, getenv, hg, hl]
    simp [strAt_eq hi hv (Nat.lt_succ_of_le hvl)]

end Env
