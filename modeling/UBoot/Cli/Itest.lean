import UBoot.Env.Setenv

/-!
# The comparisons of itest

`binary_test` of `common/cmd_itest.c` compares two operands, each of them a literal or, after `*`,
the address of a value in memory.  Integers of one or two bytes are compared as unsigned numbers and
those of four bytes as signed ones; strings are compared over the length of the shorter one, as
`doc/README.commands.itest` says.
-/

namespace Itest

/-! ### The functions -/

/-- The memory of the board. -/
abbrev Mem := Word → Byte

/-- `EQ`, `NE`, `LT`, `GT`, `LE` and `GE`. -/
inductive Opcode
  | eq
  | ne
  | lt
  | gt
  | le
  | ge
  deriving DecidableEq

/-- `op_table`. -/
def opTable : List (List Byte × Opcode) :=
  [(ascii "-lt", .lt), (ascii "<", .lt), (ascii "-gt", .gt), (ascii ">", .gt), (ascii "-eq", .eq),
    (ascii "==", .eq), (ascii "-ne", .ne), (ascii "!=", .ne), (ascii "<>", .ne), (ascii "-ge", .ge),
    (ascii ">=", .ge), (ascii "-le", .le), (ascii "<=", .le)]

/-- The address in an operand, behind its `*`. -/
def pointer (s : List Byte) : Word := BitVec.ofNat 32 (Env.simpleStrtoul s 16).1

/-- The mask `(1 << (w * 8)) - 1`; a shift by 32 leaves 0, as the instruction `slw` does. -/
def mask (w : ℕ) : Word := 1 <<< (w * 8) - 1

/-- `evalexp`. -/
def evalexp (mem : Mem) (s : List Byte) (w : ℕ) : Word :=
  if s.head? = some 42 then
    let p := pointer s.tail
    match w with
    | 1 => BitVec.ofNat 32 (mem p).toNat
    | 2 => BitVec.ofNat 32 (256 * (mem p).toNat + (mem (p + 1)).toNat)
    | 4 => bytesWord [mem p, mem (p + 1), mem (p + 2), mem (p + 3)]
    | _ => 0 &&& mask w
  else BitVec.ofNat 32 (Env.simpleStrtoul s 16).1 &&& mask w

/-- The string at an address, of at most `n` characters; `none` without a NUL. -/
def stringAt (mem : Mem) : ℕ → Word → Option (List Byte)
  | 0, _ => none
  | n + 1, p => if mem p = 0 then some [] else (stringAt mem n (p + 1)).map (mem p :: ·)

/-- The string that `evalstr` points to, up to its NUL. -/
def evalstr (mem : Mem) (s : List Byte) : Option (List Byte) :=
  if s.head? = some 42 then stringAt mem (2 ^ 32) (pointer s.tail)
  else some (s.takeWhile (· ≠ 0))

/-- The difference of two characters as a `signed char`. -/
def charDiff (c t : Byte) : ℤ := (c.toBitVec - t.toBitVec).toInt

/-- `strncmp`. -/
def strncmp : ℕ → List Byte → List Byte → ℤ
  | 0, _, _ => 0
  | count + 1, cs, ct =>
    let res := charDiff (cs.headD 0) (ct.headD 0)
    if res ≠ 0 ∨ cs.headD 0 = 0 then res else strncmp count cs.tail ct.tail

/-- What the operator says about two numbers. -/
def Opcode.holds (op : Opcode) (l r : ℤ) : Bool :=
  match op with
  | eq => l = r
  | ne => l ≠ r
  | lt => l < r
  | gt => l > r
  | le => l ≤ r
  | ge => l ≥ r

/-- `stringcomp`; `none` if an operand is not a string. -/
def stringcomp (mem : Mem) (s t : List Byte) (op : Opcode) : Option Bool := do
  let l ← evalstr mem s
  let r ← evalstr mem t
  return op.holds (strncmp (min l.length r.length) l r) 0

/-- `arithcomp`. -/
def arithcomp (mem : Mem) (s t : List Byte) (op : Opcode) (w : ℕ) : Bool :=
  op.holds (evalexp mem s w).toInt (evalexp mem t w).toInt

/-- The loop of `binary_test` over the table. -/
def lookup (op : List Byte) : List (List Byte × Opcode) → Option Opcode
  | [] => none
  | optp :: table =>
    if strncmp op.length op optp.1 = 0 ∧ op.length = optp.1.length then some optp.2
    else lookup op table

/-- `binary_test`: the value, and what is printed. -/
def binaryTest (mem : Mem) (op arg1 arg2 : List Byte) (w : ℕ) : Option (Bool × List Byte) :=
  match lookup op opTable with
  | some opcode =>
    if w = 0 then (stringcomp mem arg1 arg2 opcode).map fun value => (value, [])
    else some (arithcomp mem arg1 arg2 opcode w, [])
  | none => some (false, ascii "Unknown operator '" ++ op ++ ascii "'\n")

/-! ### What is promised -/

/-- What the operator says about an order. -/
def Opcode.test : Opcode → Ordering → Bool
  | eq, o => o = .eq
  | ne, o => o ≠ .eq
  | lt, o => o = .lt
  | gt, o => o = .gt
  | le, o => o ≠ .gt
  | ge, o => o ≠ .lt

/-- The unsigned value of an operand, reduced to `w` bytes: in memory, the most significant byte is
the first one. -/
def valueOf (mem : Mem) (s : List Byte) (w : ℕ) : ℕ :=
  if s.head? = some 42 then
    ((List.range w).map fun i => mem (pointer s.tail + BitVec.ofNat 32 i)).foldl
      (fun n c => 256 * n + c.toNat) 0
  else (Env.simpleStrtoul s 16).1 % 2 ^ (8 * w)

/-- The lexicographic order of two strings. -/
def lexicographic : List Byte → List Byte → Ordering :=
  List.compareLex fun c t => compare c.toNat t.toNat

/-- The difference of the first characters that differ fits into a `signed char`, as it does if they
are of seven bits. -/
def Near : List Byte → List Byte → Prop
  | c :: l, t :: r =>
    if c = t then Near l r else c.toNat < t.toNat + 128 ∧ t.toNat ≤ c.toNat + 128
  | _, _ => True

/-! ### Operators -/

/-- The operators follow the order of the numbers. -/
theorem holds_eq (op : Opcode) (l r : ℤ) :
  op.holds l r = op.test (compare l r)
  := by
  rcases lt_trichotomy l r with h | rfl | h
  · rw [compare_lt_iff_lt.mpr h]
    cases op <;> simp [Opcode.holds, Opcode.test] <;> omega
  · rw [compare_eq_iff_eq.mpr rfl]
    cases op <;> simp [Opcode.holds, Opcode.test]
  · rw [compare_gt_iff_gt.mpr h]
    cases op <;> simp [Opcode.holds, Opcode.test] <;> omega

/-- Every operator of the table is found. -/
theorem lookup_of_mem :
  ∀ p ∈ opTable, lookup p.1 opTable = some p.2
  := by
  decide

/-! ### Integers -/

theorem toNat_and_mask {w : ℕ} (hw : w = 1 ∨ w = 2 ∨ w = 4) (n : ℕ) :
  (BitVec.ofNat 32 n &&& mask w).toNat = n % 2 ^ (8 * w)
  := by
  have hmask : (mask w).toNat = 2 ^ (8 * w) - 1 := by
    rcases hw with rfl | rfl | rfl <;> rfl
  have hdvd : 2 ^ (8 * w) ∣ 2 ^ 32 := by
    apply Nat.pow_dvd_pow
    omega
  rw [BitVec.toNat_and, hmask, Nat.and_two_pow_sub_one_eq_mod, BitVec.toNat_ofNat,
    Nat.mod_mod_of_dvd n hdvd]

/-- What `evalexp` computes is the value of the operand. -/
theorem toNat_evalexp (mem : Mem) (s : List Byte) {w : ℕ} (hw : w = 1 ∨ w = 2 ∨ w = 4) :
  (evalexp mem s w).toNat = valueOf mem s w
  := by
  rw [evalexp, valueOf]
  by_cases hs : s.head? = some 42
  · rw [if_pos hs, if_pos hs]
    have h0 := (mem (pointer s.tail)).toNat_lt
    have h1 := (mem (pointer s.tail + 1#32)).toNat_lt
    have h2 := (mem (pointer s.tail + 2#32)).toNat_lt
    have h3 := (mem (pointer s.tail + 3#32)).toNat_lt
    rcases hw with rfl | rfl | rfl
    · simp [List.range_succ]
    · simp [List.range_succ]
      omega
    · simp [List.range_succ, bytesWord]
      omega
  · rw [if_neg hs, if_neg hs, toNat_and_mask hw]

theorem valueOf_lt (mem : Mem) (s : List Byte) {w : ℕ} (hw : w = 1 ∨ w = 2) :
  valueOf mem s w < 2 ^ 16
  := by
  rw [valueOf]
  by_cases hs : s.head? = some 42
  · rw [if_pos hs]
    have h0 := (mem (pointer s.tail)).toNat_lt
    have h1 := (mem (pointer s.tail + 1#32)).toNat_lt
    rcases hw with rfl | rfl
    · simp [List.range_succ]
      omega
    · simp [List.range_succ]
      omega
  · rw [if_neg hs]
    rcases hw with rfl | rfl
    · exact Nat.lt_trans (Nat.mod_lt _ (by decide)) (by decide)
    · exact Nat.mod_lt _ (by decide)

/-- Short values are compared as they are. -/
theorem toInt_evalexp (mem : Mem) (s : List Byte) {w : ℕ} (hw : w = 1 ∨ w = 2) :
  (evalexp mem s w).toInt = valueOf mem s w
  := by
  have hlt := valueOf_lt mem s hw
  rw [← toNat_evalexp mem s (by omega)] at hlt ⊢
  apply BitVec.toInt_eq_toNat_of_lt
  omega

/-- Values of four bytes are compared as `long`. -/
theorem evalexp_four (mem : Mem) (s : List Byte) :
  evalexp mem s 4 = BitVec.ofNat 32 (valueOf mem s 4)
  := by
  rw [← toNat_evalexp mem s (by omega), BitVec.ofNat_toNat, BitVec.setWidth_eq]

/-! ### Strings -/

theorem charDiff_eq_zero {c t : Byte} :
  charDiff c t = 0 ↔ c = t
  := by
  have hc := c.toNat_lt
  have ht := t.toNat_lt
  rw [charDiff, ← UInt8.toNat_inj, BitVec.toInt_eq_toNat_cond, BitVec.toNat_sub,
    UInt8.toNat_toBitVec, UInt8.toNat_toBitVec]
  split <;> omega

/-- A difference that fits has its sign. -/
theorem compare_charDiff {c t : Byte} (h : c.toNat < t.toNat + 128) (h' : t.toNat ≤ c.toNat + 128) :
  compare (charDiff c t) 0 = compare c.toNat t.toNat
  := by
  have hc := c.toNat_lt
  have ht := t.toNat_lt
  have heq : charDiff c t = c.toNat - t.toNat := by
    rw [charDiff, BitVec.toInt_eq_toNat_cond, BitVec.toNat_sub, UInt8.toNat_toBitVec,
      UInt8.toNat_toBitVec]
    split <;> omega
  rw [heq]
  rcases Nat.lt_trichotomy c.toNat t.toNat with hlt | heq | hlt
  · rw [compare_lt_iff_lt.mpr hlt, compare_lt_iff_lt]
    omega
  · rw [compare_eq_iff_eq.mpr heq, compare_eq_iff_eq]
    omega
  · rw [compare_gt_iff_gt.mpr hlt, compare_gt_iff_gt]
    omega

/-- No NUL is in a string. -/
theorem not_mem_of_evalstr {mem : Mem} {s l : List Byte} (h : evalstr mem s = some l) :
  0 ∉ l
  := by
  have hmem : ∀ n p l, stringAt mem n p = some l → 0 ∉ l := by
    intro n
    induction n with
    | zero =>
      rintro p l ⟨⟩
    | succ n ih =>
      intro p l hl
      rw [stringAt] at hl
      split at hl
      case isTrue =>
        obtain rfl := Option.some.inj hl
        exact List.not_mem_nil
      case isFalse hp =>
        obtain ⟨l', hl', rfl⟩ := Option.map_eq_some_iff.mp hl
        rw [List.mem_cons, not_or]
        exact ⟨Ne.symm hp, ih (p + 1) l' hl'⟩
  rw [evalstr] at h
  split at h
  case isTrue => exact hmem _ _ l h
  case isFalse =>
    obtain rfl := Option.some.inj h
    intro h0
    have hall := List.all_eq_true.mp (List.all_takeWhile (l := s) (p := (· ≠ 0))) 0 h0
    simp at hall

/-- The comparison over the length of the shorter string. -/
theorem strncmp_min {l : List Byte} (hl : 0 ∉ l) (r : List Byte) :
  (strncmp (min l.length r.length) l r = 0 ↔ l <+: r ∨ r <+: l)
    ∧ (Near l r → compare (strncmp (min l.length r.length) l r) 0
      = lexicographic (l.take r.length) (r.take l.length))
  := by
  induction l generalizing r with
  | nil => exact ⟨by simp [strncmp], fun _ => by simp [strncmp, lexicographic, List.compareLex]⟩
  | cons c l ih =>
    rw [List.mem_cons, not_or] at hl
    cases r with
    | nil => exact ⟨by simp [strncmp], fun _ => by simp [strncmp, lexicographic, List.compareLex]⟩
    | cons t r =>
      obtain ⟨hzero, horder⟩ := ih hl.2 r
      have hc : ¬ c = 0 := Ne.symm hl.1
      simp only [List.length_cons, Nat.add_min_add_right, strncmp, List.headD_cons, List.tail_cons,
        hc, or_false, List.take_succ_cons, List.cons_prefix_cons, Near]
      by_cases hct : c = t
      · subst hct
        have hdiff : charDiff c c = 0 := charDiff_eq_zero.mpr rfl
        have hcompare : compare c.toNat c.toNat = .eq := compare_eq_iff_eq.mpr rfl
        simp only [hdiff, ne_eq, not_true_eq_false, if_false, true_and, if_true, lexicographic,
          List.compareLex_cons_cons, hcompare, Ordering.eq_then]
        exact ⟨hzero, horder⟩
      · have hdiff : charDiff c t ≠ 0 := mt charDiff_eq_zero.mp hct
        have hcompare : compare c.toNat t.toNat ≠ .eq := by
          rw [Ne, compare_eq_iff_eq, UInt8.toNat_inj]
          exact hct
        simp only [if_pos hdiff, hdiff, hct, Ne.symm hct, false_and, or_self, lexicographic,
          List.compareLex_cons_cons]
        refine ⟨trivial, ?_⟩
        rintro ⟨hlt, hle⟩
        rw [compare_charDiff hlt hle]
        cases hc : compare c.toNat t.toNat with
        | lt => rfl
        | eq => exact absurd hc hcompare
        | gt => rfl

/-! ### The comparison -/

theorem binaryTest_of_mem {p : List Byte × Opcode} (hp : p ∈ opTable) (mem : Mem) (s t : List Byte)
    {w : ℕ} (hw : w ≠ 0) :
  binaryTest mem p.1 s t w = some (arithcomp mem s t p.2 w, [])
  := by
  simp only [binaryTest, lookup_of_mem p hp, if_neg hw]

/--
**What `binary_test` compares.**  With one or two bytes, the unsigned values of the operands; with
four bytes, their values as `long`; and of two strings what both have, where an equal order means
that one is the beginning of the other.  All operators follow the same order, so that one of `<`,
`==` and `>` holds.
-/
theorem binaryTest_spec (mem : Mem) (s t : List Byte) :
  (∀ w, w = 1 ∨ w = 2 → ∀ p ∈ opTable, binaryTest mem p.1 s t w
    = some (p.2.test (compare (valueOf mem s w : ℤ) (valueOf mem t w)), []))
  ∧ (∀ p ∈ opTable, binaryTest mem p.1 s t 4
    = some (p.2.test (compare (BitVec.ofNat 32 (valueOf mem s 4)).toInt
        (BitVec.ofNat 32 (valueOf mem t 4)).toInt), []))
  ∧ ∀ l r, evalstr mem s = some l → evalstr mem t = some r →
    ∃ o : Ordering, (∀ p ∈ opTable, binaryTest mem p.1 s t 0 = some (p.2.test o, []))
      ∧ (o = .eq ↔ l <+: r ∨ r <+: l)
      ∧ (Near l r → o = lexicographic (l.take r.length) (r.take l.length))
  := by
  refine ⟨?_, ?_, ?_⟩
  · intro w hw p hp
    rw [binaryTest_of_mem hp mem s t (by omega), arithcomp, holds_eq, toInt_evalexp mem s hw,
      toInt_evalexp mem t hw]
  · intro p hp
    rw [binaryTest_of_mem hp mem s t (by decide), arithcomp, holds_eq, evalexp_four, evalexp_four]
  · intro l r hl hr
    obtain ⟨hzero, horder⟩ := strncmp_min (not_mem_of_evalstr hl) r
    refine ⟨compare (strncmp (min l.length r.length) l r) 0, ?_, ?_, horder⟩
    · intro p hp
      simp only [binaryTest, lookup_of_mem p hp, if_true, stringcomp, hl, hr, holds_eq,
        Option.bind_eq_bind, Option.bind_some, Option.pure_def, Option.map_some]
    · rw [compare_eq_iff_eq]
      exact hzero

theorem binaryTest_spec_byte :
  binaryTest (fun _ => 0) (ascii "<") (ascii "101") (ascii "2") 1 = some (true, [])
  := (binaryTest_spec (fun _ => 0) (ascii "101") (ascii "2")).1 1 (.inl rfl) (ascii "<", .lt)
    (by decide)

/-- A string equals every longer one that begins with it, and a `long` with the top bit set is below
0. -/
theorem binaryTest_breaks :
  binaryTest (fun _ => 0) (ascii "==") (ascii "ab") (ascii "abc") 0 = some (true, [])
    ∧ binaryTest (fun _ => 0) (ascii "<") (ascii "1") (ascii "80000000") 4 = some (false, [])
    ∧ valueOf (fun _ => 0) (ascii "1") 4 < valueOf (fun _ => 0) (ascii "80000000") 4
  := by
  refine ⟨rfl, rfl, ?_⟩
  decide

end Itest
