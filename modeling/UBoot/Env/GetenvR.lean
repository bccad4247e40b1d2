import UBoot.Env.Data

/-!
# Copies of variables

`getenv_r` copies the value of a variable to a buffer of `len` bytes.  A value that fills the
buffer with its NUL has another NUL written behind it, and a longer one is left without any.
-/

namespace Env

open Memory

/-- The loop that copies the value from `val` on: what it leaves in memory, `n`, and where `buf`
points; `k` more bytes fit the buffer. -/
def copyOut (d : ℕ → Byte) : ℕ → ℕ → ℕ → (ℕ → Byte) → (ℕ → Byte) × ℕ × ℕ
  | 0, n, _, m => (m, n + 1, n)
  | k + 1, n, val, m =>
    let m := Function.update m n (d val)
    if d val ≠ 0 then copyOut d k (n + 1) (val + 1) m else (m, n + 1, n + 1)

/-- `getenv_r`, for the memory from the buffer on; it looks for the variable as `getenv` does. -/
def getenvR (d : ℕ → Byte) (size : ℕ) (name : List Byte) (len : ℕ) (m : ℕ → Byte) :
    Option ((ℕ → Byte) × ℤ) := do
  match ← getenv d size name with
  | none => some (m, -1)
  | some val =>
    let r := copyOut d len 0 val m
    some (if len = r.2.1 then Function.update r.1 r.2.2 0 else r.1, r.2.1)

/-- A prefix of the value with a NUL, the whole one if it fits, is in the buffer, and the result is
the number of characters that were stored; nothing is written behind the buffer. -/
structure Delivers (m m' : ℕ → Byte) (len : ℕ) (value : List Byte) (ret : ℤ) : Prop where
  stored : ∃ k < len, Holds m' 0 (value.take k ++ [0]) ∧ ret = k + 1
    ∧ k ≤ value.length ∧ (value.length < len → k = value.length)
  outside : ∀ a, len ≤ a → m' a = m a

/-- What a call should do, for the value of the variable. -/
def Returns (m m' : ℕ → Byte) (len : ℕ) (value : Option (List Byte)) (ret : ℤ) : Prop :=
  value.elim (m' = m ∧ ret = -1) fun v => Delivers m m' len v ret

variable {d m : ℕ → Byte} {k n val size len : ℕ} {v name : List Byte} {es : List Entry}

/-- The value fits with its NUL. -/
theorem copyOut_of_lt (h : Holds d val (v ++ [0])) (hv : IsStr v) (hk : v.length < k) :
  copyOut d k n val m = (store m n (v ++ [0]), n + v.length + 1, n + v.length + 1)
  := by
  induction v generalizing k n val m with
  | nil =>
    obtain ⟨k, rfl⟩ := Nat.exists_eq_add_one_of_ne_zero (Nat.ne_zero_of_lt hk)
    rw [copyOut, h.1, if_neg (not_not_intro rfl)]
    rfl
  | cons c v ih =>
    obtain ⟨k, rfl⟩ := Nat.exists_eq_add_one_of_ne_zero (Nat.ne_zero_of_lt hk)
    have hc : c ≠ 0 := by
      rintro rfl
      exact hv List.mem_cons_self
    rw [copyOut, h.1, if_pos hc, ih h.2 (fun hmem => hv (List.mem_cons_of_mem c hmem))
      (Nat.lt_of_succ_lt_succ hk), List.length_cons]
    have hshift : n + 1 + v.length = n + (v.length + 1) := by omega
    rw [hshift]
    rfl

/-- The buffer is full before the NUL. -/
theorem copyOut_of_le (h : Holds d val (v ++ [0])) (hv : IsStr v) (hk : k ≤ v.length) :
  copyOut d k n val m = (store m n (v.take k), n + k + 1, n + k)
  := by
  induction v generalizing k n val m with
  | nil =>
    obtain rfl := Nat.le_zero.mp hk
    rfl
  | cons c v ih =>
    cases k with
    | zero => rfl
    | succ k =>
      have hc : c ≠ 0 := by
        rintro rfl
        exact hv List.mem_cons_self
      rw [copyOut, h.1, if_pos hc, ih h.2 (fun hmem => hv (List.mem_cons_of_mem c hmem))
        (Nat.le_of_succ_le_succ hk)]
      have hshift : n + 1 + k = n + (k + 1) := by omega
      rw [hshift]
      rfl

/-- The copy is right if it leaves room behind the NUL. -/
theorem delivers_of_lt (h : Holds d val (v ++ [0])) (hv : IsStr v) (hlen : v.length + 1 < len)
    (m : ℕ → Byte) :
  Delivers m (if len = (copyOut d len 0 val m).2.1
      then Function.update (copyOut d len 0 val m).1 (copyOut d len 0 val m).2.2 0
      else (copyOut d len 0 val m).1) len v (copyOut d len 0 val m).2.1
  := by
  rw [copyOut_of_lt h hv (by omega), Nat.zero_add]
  dsimp only
  rw [if_neg (by omega)]
  constructor
  · refine ⟨v.length, by omega, ?_, by push_cast; rfl, le_rfl, fun _ => rfl⟩
    rw [List.take_length]
    apply holds_store
  · intro a ha
    apply store_of_le
    rw [List.length_append]
    exact Nat.le_trans (by rw [Nat.zero_add]; exact hlen.le) ha

/-- A value that fills the buffer with its NUL has a NUL written behind it. -/
theorem not_delivers_of_eq (h : Holds d val (v ++ [0])) (hv : IsStr v) (hlen : v.length + 1 = len) :
  ¬ Delivers (fun _ => 1) (if len = (copyOut d len 0 val fun _ => 1).2.1
      then Function.update (copyOut d len 0 val fun _ => 1).1 (copyOut d len 0 val fun _ => 1).2.2 0
      else (copyOut d len 0 val fun _ => 1).1) len v (copyOut d len 0 val fun _ => 1).2.1
  := by
  intro hdelivers
  have houtside := hdelivers.outside len le_rfl
  rw [copyOut_of_lt h hv (by omega), Nat.zero_add] at houtside
  dsimp only at houtside
  rw [hlen, if_pos rfl, Function.update_self] at houtside
  exact absurd houtside (by decide)

/-- A longer value is left without a NUL. -/
theorem not_delivers_of_gt (h : Holds d val (v ++ [0])) (hv : IsStr v) (hlen : len < v.length + 1)
    (m : ℕ → Byte) :
  ¬ Delivers m (if len = (copyOut d len 0 val m).2.1
      then Function.update (copyOut d len 0 val m).1 (copyOut d len 0 val m).2.2 0
      else (copyOut d len 0 val m).1) len v (copyOut d len 0 val m).2.1
  := by
  intro hdelivers
  obtain ⟨k, hk, hholds, hret, hle, _⟩ := hdelivers.stored
  rw [copyOut_of_le h hv (by omega), Nat.zero_add] at hret hholds
  dsimp only at hret
  omega

/-- **`getenv_r` is right**, whatever the buffer contains, if and only if the variable is not set
or its value with the NUL is shorter than the buffer. -/
theorem getenvR_returns_iff (h : WellFormed size d es) (hname : IsName name) :
  (∀ m, ∃ r value, getenvR d size name len m = some r
      ∧ getenvStr d size name = some value ∧ Returns m r.1 len value r.2)
    ↔ ∀ v, getenvStr d size name = some (some v) → v.length + 1 < len
  := by
  have hstr := h.getenvStr_eq le_rfl hname
  have hsize := h.length_flatten
  have hes := length_lt_flatten es
  rw [hstr]
  obtain ⟨hl, hg⟩ | ⟨v, i, hl, hg, hi, hv, _⟩ :=
    getenvFrom_eq size (size + 2) hname h.holds_flatten (by omega) (by omega)
  · rw [hl]
    constructor
    · rintro _ v ⟨⟩
    · intro _ m
      refine ⟨(m, -1), none, ?_, rfl, rfl, rfl⟩
      rw [getenvR, getenv, hg]
      rfl
  · have hgetenv : ∀ m, getenvR d size name len m
        = some (if len = (copyOut d len 0 i m).2.1
            then Function.update (copyOut d len 0 i m).1 (copyOut d len 0 i m).2.2 0
            else (copyOut d len 0 i m).1, ((copyOut d len 0 i m).2.1 : ℤ)) := by
      intro m
      rw [getenvR, getenv, hg]
      rfl
    rw [hl]
    constructor
    · intro hall w hw
      obtain rfl := Option.some.inj (Option.some.inj hw)
      by_contra hlong
      obtain ⟨r, value, hr, hvalue, hreturns⟩ := hall fun _ => 1
      obtain rfl := Option.some.inj ((hgetenv _).symm.trans hr)
      obtain rfl := Option.some.inj hvalue
      obtain heq | hgt := Nat.eq_or_lt_of_le (Nat.le_of_not_lt hlong)
      · exact not_delivers_of_eq hi hv heq.symm hreturns
      · exact not_delivers_of_gt hi hv hgt _ hreturns
    · intro hshort m
      exact ⟨_, _, hgetenv m, rfl, delivers_of_lt hi hv (hshort v rfl) m⟩

/-- The area with the variable `a`, whose value is `b`. -/
def areaAB (i : ℕ) : Byte := [97, 61, 98, 0, 0].getD i 0

theorem areaAB_wellFormed :
  WellFormed 5 areaAB [⟨ascii "a", ascii "b", by decide, by decide⟩]
  := ⟨List.nodup_singleton _, by decide, rfl, rfl, rfl, rfl, rfl, trivial⟩

theorem getenvR_returns_iff_three :
  IsName (ascii "a") ∧ ∀ m, ∃ r value, getenvR areaAB 5 (ascii "a") 3 m = some r
    ∧ getenvStr areaAB 5 (ascii "a") = some value ∧ Returns m r.1 3 value r.2
  := by
  refine ⟨by decide, (getenvR_returns_iff areaAB_wellFormed (by decide)).mpr ?_⟩
  intro v hv
  have hvalue : getenvStr areaAB 5 (ascii "a") = some (some (ascii "b")) := by decide
  rw [hvalue] at hv
  obtain rfl := Option.some.inj (Option.some.inj hv)
  decide

/-- The value and its NUL fill the buffer. -/
theorem not_returns_two :
  ¬ ∀ (size : ℕ) (d m : ℕ → Byte) (es : List Entry) (name : List Byte) (len : ℕ),
    WellFormed size d es → IsName name → 0 < len →
      ∃ r value, getenvR d size name len m = some r
        ∧ getenvStr d size name = some value ∧ Returns m r.1 len value r.2
  := by
  intro hall
  obtain ⟨r, value, hr, hvalue, hreturns⟩ := hall 5 areaAB (fun _ => 1) _ (ascii "a") 2
    areaAB_wellFormed (by decide) (by decide)
  have hstr : getenvStr areaAB 5 (ascii "a") = some (some (ascii "b")) := by decide
  obtain rfl := Option.some.inj (hvalue.symm.trans hstr)
  have hbyte : (getenvR areaAB 5 (ascii "a") 2 fun _ => 1).map (fun r => r.1 2) = some 0 := by
    decide
  rw [hr, Option.map_some, Option.some.injEq] at hbyte
  have houtside := hreturns.outside 2 le_rfl
  rw [hbyte] at houtside
  exact absurd houtside (by decide)

end Env
