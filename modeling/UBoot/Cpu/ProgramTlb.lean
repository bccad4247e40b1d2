import UBoot.Cpu.Tlb

/-!
# Programming the TLB

An iteration of `program_tlb_addr` either adds the next page of the region or changes nothing, so
that an iteration that changes nothing is followed by others like it for ever.  What the loop adds,
when it ends, maps every address of the region once; `remove_tlb` finds these entries again, and
leaves an older entry alone if its page number is a multiple of a page size that the code knows.
-/

namespace Tlb

open Blocks

variable {iValue : Word} {s s' : State} {k : ℕ} {i : Fin tlbSize}

/-! ### One iteration -/

/-- The iteration adds a page of `2 ^ k` bytes in the entry `i`. -/
structure Adds (iValue : Word) (s s' : State) (k : ℕ) (i : Fin tlbSize) : Prop where
  fit : fit shifts s.physAddr.toNat s.memSize.toNat = some k
  phys_lt : s.physAddr.toNat < 2 ^ 36
  not_valid : ¬ (s.tlb i).Valid
  phys : s'.physAddr.toNat = s.physAddr.toNat + 2 ^ k
  virt : s'.virtAddr = s.virtAddr + BitVec.ofNat 32 (2 ^ k)
  size : s'.memSize.toNat = s.memSize.toNat - 2 ^ k
  tlb : s'.tlb
    = Function.update s.tlb i (newEntry s.physAddr s.virtAddr (page k).sizeValue iValue)

/-- The iteration only prints. -/
structure Stuck (s s' : State) : Prop where
  reason : 2 ^ 36 ≤ s.physAddr.toNat ∨ fit shifts s.physAddr.toNat s.memSize.toNat = none
    ∨ free s.tlb = 0
  phys : s'.physAddr = s.physAddr
  size : s'.memSize = s.memSize
  tlb : s'.tlb = s.tlb

theorem step_cases (iValue : Word) (hs : s.memSize ≠ 0) :
  (∃ k i, Adds iValue s (step iValue s) k i) ∨ Stuck s (step iValue s)
  := by
  rw [step, if_neg hs, body]
  cases hpage : s.page with
  | none =>
    right
    refine ⟨?_, rfl, rfl, rfl⟩
    rw [page_eq] at hpage
    split at hpage
    case isTrue => exact .inr (.inl (Option.map_eq_none_iff.mp hpage))
    case isFalse hlt => exact .inl (Nat.not_lt.mp hlt)
  | some pg =>
    rw [page_eq] at hpage
    split at hpage
    case isFalse => cases hpage
    case isTrue hlt =>
      obtain ⟨k, hk, rfl⟩ := Option.map_eq_some_iff.mp hpage
      obtain ⟨hmem, -, hle⟩ := fit_some hk
      cases hfree : firstFree s.tlb with
      | none =>
        right
        simp only [addTlbEntry, hfree, Option.map_none]
        exact ⟨.inr (.inr (firstFree_eq_none.mp hfree)), rfl, rfl, rfl⟩
      | some i =>
        left
        simp only [addTlbEntry, hfree, Option.map_some]
        have hsize := toNat_size hmem
        have hpow : 2 ^ k ≤ 2 ^ 28 := Nat.pow_le_pow_right (by decide) (le_of_mem_shifts hmem).2
        refine ⟨k, i, hk, hlt, not_valid_of_firstFree hfree, ?_, rfl, ?_, rfl⟩
        · show (s.physAddr + (page k).size.setWidth 64).toNat = _
          rw [BitVec.toNat_add, BitVec.toNat_setWidth, hsize]
          omega
        · show (s.memSize - (page k).size).toNat = _
          rw [BitVec.toNat_sub_of_le (by rwa [BitVec.le_def, hsize]), hsize]

/-! ### When the loop ends -/

/-- The region is empty, or it lies in the physical address space, is covered by pages, and there
are free entries for them. -/
def Enough (s : State) : Prop :=
  s.memSize = 0 ∨ s.physAddr.toNat + s.memSize.toNat ≤ 2 ^ 36
    ∧ ∃ l, Cover shifts s.physAddr.toNat s.memSize.toNat l ∧ l.length ≤ free s.tlb

/-- A page that is aligned and begins in an address space ends in it. -/
theorem add_le_of_dvd {a b : ℕ} (hle : k ≤ b) (hdvd : 2 ^ k ∣ a) (hlt : a < 2 ^ b) :
  a + 2 ^ k ≤ 2 ^ b
  := by
  have hsplit : 2 ^ b = 2 ^ k * 2 ^ (b - k) := by rw [← Nat.pow_add, Nat.add_sub_cancel' hle]
  obtain ⟨c, rfl⟩ := hdvd
  rw [hsplit] at hlt ⊢
  have hc : c < 2 ^ (b - k) := Nat.lt_of_mul_lt_mul_left hlt
  calc 2 ^ k * c + 2 ^ k = 2 ^ k * (c + 1) := by ring
    _ ≤ 2 ^ k * 2 ^ (b - k) := Nat.mul_le_mul_left _ hc

/-- The entry is used now. -/
theorem Adds.free_eq (h : Adds iValue s s' k i) :
  free s.tlb = free s'.tlb + 1
  := by
  rw [h.tlb]
  exact free_update h.not_valid (valid_newEntry _ _ _ (fit_some h.fit).1)

/-- The page ends in the physical address space. -/
theorem Adds.phys_le (h : Adds iValue s s' k i) :
  s.physAddr.toNat + 2 ^ k ≤ 2 ^ 36
  := by
  obtain ⟨hmem, hdvd, -⟩ := fit_some h.fit
  have hle := (le_of_mem_shifts hmem).2
  exact add_le_of_dvd (by omega) hdvd h.phys_lt

theorem toNat_ne_zero {a : Word} (h : a ≠ 0) :
  a.toNat ≠ 0
  := by
  intro h0
  exact h (BitVec.eq_of_toNat_eq h0)

/-- An iteration neither makes room nor takes it away. -/
theorem enough_step_iff (iValue : Word) (hs : s.memSize ≠ 0) :
  Enough (step iValue s) ↔ Enough s
  := by
  have hne := toNat_ne_zero hs
  rcases step_cases iValue hs with ⟨k, i, h⟩ | h
  · obtain ⟨-, -, hle⟩ := fit_some h.fit
    have hfree := h.free_eq
    have hphys := h.phys_le
    constructor
    · rintro (h0 | ⟨hlt, l, hl, hlen⟩)
      · have hrest : s.memSize.toNat - 2 ^ k = 0 := by
          rw [← h.size, h0]
          rfl
        refine .inr ⟨by omega, [k], .cons hne h.fit ?_, ?_⟩
        · rw [hrest]
          exact .nil _
        · rw [List.length_singleton]
          omega
      · rw [h.phys, h.size] at hlt hl
        refine .inr ⟨by omega, k :: l, .cons hne h.fit hl, ?_⟩
        rw [List.length_cons]
        omega
    · rintro (h0 | ⟨hlt, l, hl, hlen⟩)
      · exact absurd h0 hs
      · obtain ⟨k', l', rfl, hk', hl'⟩ := hl.exists_cons hne
        obtain rfl := Option.some.inj (h.fit.symm.trans hk')
        rw [List.length_cons] at hlen
        rw [← h.phys, ← h.size] at hl'
        refine .inr ⟨?_, l', hl', by omega⟩
        rw [h.phys, h.size]
        omega
  · rw [Enough, Enough, h.phys, h.size, h.tlb]

/-- With enough room, what is left of the region gets smaller. -/
theorem adds_of_enough (iValue : Word) (hs : s.memSize ≠ 0) (h : Enough s) :
  ∃ k i, Adds iValue s (step iValue s) k i
  := by
  rcases step_cases iValue hs with hadds | hstuck
  · exact hadds
  · obtain h0 | ⟨hlt, l, hl, hlen⟩ := h
    · exact absurd h0 hs
    · have hne := toNat_ne_zero hs
      obtain ⟨k, l', rfl, hk, -⟩ := hl.exists_cons hne
      rcases hstuck.reason with hreason | hreason | hreason
      · omega
      · rw [hk] at hreason
        cases hreason
      · rw [hreason] at hlen
        exact absurd hlen (Nat.not_succ_le_zero _)

/-- After some iterations nothing is left of the region. -/
def Ends (iValue : Word) (s : State) : Prop := ∃ n, ((step iValue)^[n] s).memSize = 0

theorem ends_of_step (h : Ends iValue (step iValue s)) :
  Ends iValue s
  := by
  obtain ⟨n, hn⟩ := h
  exact ⟨n + 1, hn⟩

/-- The loop ends if and only if there is enough room. -/
theorem ends_iff (iValue : Word) (s : State) :
  Ends iValue s ↔ Enough s
  := by
  constructor
  · rintro ⟨n, hn⟩
    induction n generalizing s with
    | zero => exact .inl hn
    | succ n ih =>
      by_cases hs : s.memSize = 0
      · exact .inl hs
      · exact (enough_step_iff iValue hs).mp (ih _ hn)
  · intro h
    generalize hsize : s.memSize.toNat = size
    induction size using Nat.strong_induction_on generalizing s with
    | _ size ih =>
      by_cases hs : s.memSize = 0
      · exact ⟨0, hs⟩
      · obtain ⟨k, i, hadds⟩ := adds_of_enough iValue hs h
        have hpos : 0 < 2 ^ k := Nat.two_pow_pos k
        have hne := toNat_ne_zero hs
        have hless := hadds.size
        apply ends_of_step
        exact ih _ (by omega) _ ((enough_step_iff iValue hs).mpr h) rfl

/-- Pages cover a region if its ends are multiples of 1 KB. -/
theorem exists_pages_iff {p n : ℕ} (hn : n ≠ 0) :
  (∃ l, Cover shifts p n l) ↔ 2 ^ 10 ∣ p ∧ 2 ^ 10 ∣ n
  := exists_cover_iff (by decide) (fun _ hk => (le_of_mem_shifts hk).1) hn

theorem enough_iff (s : State) :
  Enough s ↔ s.memSize = 0 ∨ 2 ^ 10 ∣ s.physAddr.toNat ∧ 2 ^ 10 ∣ s.memSize.toNat
    ∧ s.physAddr.toNat + s.memSize.toNat ≤ 2 ^ 36
    ∧ ∀ l, Cover shifts s.physAddr.toNat s.memSize.toNat l → l.length ≤ free s.tlb
  := by
  by_cases hs : s.memSize = 0
  · rw [Enough]
    simp only [hs, true_or]
  · have hexists := exists_pages_iff (p := s.physAddr.toNat) (toNat_ne_zero hs)
    constructor
    · rintro (h0 | ⟨hle, l, hl, hlen⟩)
      · exact .inl h0
      · obtain ⟨hp, hn⟩ := hexists.mp ⟨l, hl⟩
        refine .inr ⟨hp, hn, hle, ?_⟩
        intro l' hl'
        rwa [hl'.unique hl]
    · rintro (h0 | ⟨hp, hn, hle, hlen⟩)
      · exact .inl h0
      · obtain ⟨l, hl⟩ := hexists.mpr ⟨hp, hn⟩
        exact .inr ⟨hle, l, hl, hlen l hl⟩

/--
**`program_tlb` terminates** if and only if the region is empty, or its ends are multiples of 1 KB,
it lies in the 36 bits of the physical address space, and there are free entries for the pages that
cover it.
-/
theorem programTlb_ends_iff (tlb : Entries) (physAddr : BitVec 64) (virtAddr size iValue : Word) :
  Ends iValue (start physAddr virtAddr size tlb)
    ↔ size = 0 ∨ 2 ^ 10 ∣ physAddr.toNat ∧ 2 ^ 10 ∣ size.toNat
      ∧ physAddr.toNat + size.toNat ≤ 2 ^ 36
      ∧ ∀ l, Cover shifts physAddr.toNat size.toNat l → l.length ≤ free tlb
  := by
  rw [ends_iff, enough_iff]
  rfl

/-- With 512 bytes to go, no page fits. -/
theorem programTlb_never_ends :
  ¬ Ends 0 (start 0 0 512 fun _ => ⟨0, 0, 0⟩)
  := by
  rw [ends_iff, enough_iff]
  rintro (h0 | ⟨-, hdvd, -⟩)
  · exact absurd h0 (by decide)
  · exact absurd hdvd (by decide)

/-! ### What is added -/

/-- The entries that were free map the `n` addresses from `v` on, each by one of them, to those from
`p` on. -/
structure Mapped (tlb tlb' : Entries) (v p n : ℕ) : Prop where
  old : ∀ i, (tlb i).Valid → tlb' i = tlb i
  new : ∀ i, ¬ (tlb i).Valid → (tlb' i).Valid →
    ∃ a k, (tlb' i).Maps (v + a) (p + a) k ∧ a + 2 ^ k ≤ n
  once : ∀ x < n, ∃ i, ¬ (tlb i).Valid ∧ (tlb' i).translate (v + x) = some (p + x)
    ∧ ∀ j, ¬ (tlb j).Valid → j ≠ i → (tlb' j).translate (v + x) = none

theorem Entry.translate_of_not_valid {e : Entry} (h : ¬ e.Valid) (va : ℕ) :
  e.translate va = none
  := if_neg h

section Mapped

variable {tlb tlb₁ tlb₂ : Entries} {e : Entry} {v p m n : ℕ}

/-- What a new entry translates lies in the region. -/
theorem Mapped.range_of_translate (h : Mapped tlb tlb₁ v p n) (hi : ¬ (tlb i).Valid) {va : ℕ}
    (hva : (tlb₁ i).translate va ≠ none) :
  v ≤ va ∧ va < v + n
  := by
  by_cases hvalid : (tlb₁ i).Valid
  · obtain ⟨a, k, hmaps, hle⟩ := h.new i hi hvalid
    rw [hmaps.translate_eq] at hva
    by_cases hin : v + a ≤ va ∧ va < v + a + 2 ^ k
    · omega
    · exact absurd (if_neg hin) hva
  · exact absurd (Entry.translate_of_not_valid hvalid va) hva

/-- One page. -/
theorem mapped_update (hi : ¬ (tlb i).Valid) (he : e.Maps v p k) :
  Mapped tlb (Function.update tlb i e) v p (2 ^ k)
  := by
  have hne : ∀ j, (tlb j).Valid → j ≠ i := by
    rintro j hj rfl
    exact hi hj
  refine ⟨?_, ?_, ?_⟩
  · intro j hj
    exact Function.update_of_ne (hne j hj) _ _
  · intro j hj hvalid
    by_cases hji : j = i
    · subst hji
      rw [Function.update_self]
      exact ⟨0, k, he, Nat.le_of_eq (Nat.zero_add _)⟩
    · rw [Function.update_of_ne hji] at hvalid
      exact absurd hvalid hj
  · intro x hx
    refine ⟨i, hi, ?_, ?_⟩
    · rw [Function.update_self, he.translate_eq, if_pos (by omega), Nat.add_sub_cancel_left]
    · intro j hj hji
      rw [Function.update_of_ne hji]
      exact Entry.translate_of_not_valid hj _

/-- A region is mapped in two parts, one behind the other. -/
theorem Mapped.trans (h₁ : Mapped tlb tlb₁ v p m) (h₂ : Mapped tlb₁ tlb₂ (v + m) (p + m) n) :
  Mapped tlb tlb₂ v p (m + n)
  := by
  have hvalid : ∀ i, (tlb i).Valid → (tlb₁ i).Valid := by
    intro i hi
    rwa [h₁.old i hi]
  refine ⟨?_, ?_, ?_⟩
  · intro i hi
    rw [h₂.old i (hvalid i hi), h₁.old i hi]
  · intro i hi hi₂
    by_cases hi₁ : (tlb₁ i).Valid
    · rw [h₂.old i hi₁]
      obtain ⟨a, k, hmaps, hle⟩ := h₁.new i hi hi₁
      exact ⟨a, k, hmaps, by omega⟩
    · obtain ⟨a, k, hmaps, hle⟩ := h₂.new i hi₁ hi₂
      rw [Nat.add_assoc, Nat.add_assoc] at hmaps
      exact ⟨m + a, k, hmaps, by omega⟩
  · intro x hx
    by_cases hxm : x < m
    · obtain ⟨i, hi, htranslate, hothers⟩ := h₁.once x hxm
      have hi₁ : (tlb₁ i).Valid := by
        by_contra hnot
        rw [Entry.translate_of_not_valid hnot] at htranslate
        cases htranslate
      refine ⟨i, hi, by rw [h₂.old i hi₁, htranslate], ?_⟩
      intro j hj hji
      by_cases hj₁ : (tlb₁ j).Valid
      · rw [h₂.old j hj₁]
        exact hothers j hj hji
      · by_contra hsome
        have hrange := h₂.range_of_translate hj₁ hsome
        omega
    · obtain ⟨i, hi, htranslate, hothers⟩ := h₂.once (x - m) (by omega)
      have hv : v + m + (x - m) = v + x := by omega
      have hp : p + m + (x - m) = p + x := by omega
      rw [hv] at htranslate hothers
      rw [hp] at htranslate
      refine ⟨i, mt (hvalid i) hi, htranslate, ?_⟩
      intro j hj hji
      by_cases hj₁ : (tlb₁ j).Valid
      · rw [h₂.old j hj₁]
        by_contra hsome
        have hrange := h₁.range_of_translate hj hsome
        omega
      · exact hothers j hj₁ hji

end Mapped

/-- The virtual and the physical addresses of the region have the same places in their largest
pages, and the virtual ones do not wrap. -/
structure Fits (s : State) : Prop where
  congr : s.virtAddr.toNat % 2 ^ 28 = s.physAddr.toNat % 2 ^ 28
  virt_end : s.virtAddr.toNat + s.memSize.toNat ≤ 2 ^ 32

/-- The page that is added is aligned on both sides. -/
theorem Adds.mapped (h : Adds iValue s s' k i) (hfits : Fits s) :
  Mapped s.tlb s'.tlb s.virtAddr.toNat s.physAddr.toNat (2 ^ k)
  := by
  obtain ⟨hmem, hdvd, -⟩ := fit_some h.fit
  have hpow : 2 ^ k ∣ 2 ^ 28 := Nat.pow_dvd_pow 2 (le_of_mem_shifts hmem).2
  have hvirt : 2 ^ k ∣ s.virtAddr.toNat := by
    rwa [← Nat.dvd_mod_iff hpow, hfits.congr, Nat.dvd_mod_iff hpow]
  rw [h.tlb]
  exact mapped_update h.not_valid (maps_newEntry iValue hmem hvirt hdvd h.phys_lt)

/-- The loop maps what is left of the region. -/
theorem exists_mapped (iValue : Word) (s : State) (h : Enough s) (hfits : Fits s) :
  ∃ n, ((step iValue)^[n] s).memSize = 0
    ∧ Mapped s.tlb ((step iValue)^[n] s).tlb s.virtAddr.toNat s.physAddr.toNat s.memSize.toNat
  := by
  generalize hsize : s.memSize.toNat = size
  induction size using Nat.strong_induction_on generalizing s with
  | _ size ih =>
    by_cases hs : s.memSize = 0
    · refine ⟨0, hs, fun _ _ => rfl, fun i hi hi' => absurd hi' hi, ?_⟩
      intro x hx
      rw [← hsize, hs] at hx
      exact absurd hx (Nat.not_lt_zero x)
    · obtain ⟨k, i, hadds⟩ := adds_of_enough iValue hs h
      have hpos : 0 < 2 ^ k := Nat.two_pow_pos k
      have hne := toNat_ne_zero hs
      obtain ⟨hmem, -, hle⟩ := fit_some hadds.fit
      have hless := hadds.size
      have hpage := hadds.mapped hfits
      by_cases hlast : (step iValue s).memSize = 0
      · have hk : size = 2 ^ k := by
          rw [hlast] at hless
          have hzero : (0 : Word).toNat = 0 := rfl
          omega
        rw [hk]
        exact ⟨1, hlast, hpage⟩
      · have hrest := toNat_ne_zero hlast
        have hvirt_end := hfits.virt_end
        have hphys := hadds.phys
        have hk32 : 2 ^ k < 2 ^ 32 := by omega
        have hvirt : (step iValue s).virtAddr.toNat = s.virtAddr.toNat + 2 ^ k := by
          rw [hadds.virt, BitVec.toNat_add, BitVec.toNat_ofNat, Nat.mod_eq_of_lt hk32,
            Nat.mod_eq_of_lt (by omega)]
        have hcongr := hfits.congr
        obtain ⟨n, hn, hmapped⟩ := ih _ (by omega) (step iValue s)
          ((enough_step_iff iValue hs).mpr h)
          ⟨by rw [hvirt, hphys, Nat.add_mod, hcongr, ← Nat.add_mod], by omega⟩ rfl
        rw [hvirt, hphys, hless] at hmapped
        have hall := hpage.trans hmapped
        rw [Nat.add_sub_cancel' hle, hsize] at hall
        exact ⟨n + 1, hn, hall⟩

/-! ### What is removed -/

/-- The size of the page is one that the code knows. -/
def Entry.Known (e : Entry) : Prop := e.shift ≠ none

/-- `remove_tlb` disables the entry. -/
def Removed (vaddr size : Word) (e : Entry) : Prop :=
  e.Valid ∧ e.word0 &&& pageMask ≥ vaddr
    ∧ (e.word0 &&& pageMask) + pageSize e.word0 0 - 1 ≤ vaddr + size - 1

instance (vaddr size : Word) (e : Entry) : Decidable (Removed vaddr size e) :=
  inferInstanceAs (Decidable (_ ∧ _))

section Removed

variable {tlb : Entries} {e : Entry} {vaddr size : Word}

theorem pageSize_of_shift (h : e.shift = some k) (old : Word) :
  pageSize e.word0 old = BitVec.ofNat 32 (2 ^ k)
  := by
  have hfind : pages.find? (fun page => e.word0 &&& sizeMask = page.sizeValue)
      = e.shift.map page := by
    rw [pages_eq, List.find?_map]
    rfl
  rw [pageSize, hfind, h]
  rfl

/-- For an entry with a page size that is known, the variable `tlb_size` makes no difference. -/
theorem removeOne_eq {s : Entries × Word} (h : (s.1 i).Valid → (s.1 i).Known) :
  (removeOne vaddr size s i).1 = if Removed vaddr size (s.1 i) then
      Function.update s.1 i { s.1 i with word0 := 0 }
    else s.1
  := by
  rw [removeOne]
  by_cases hin : (s.1 i).word0 &&& vMask = vMask ∧ (s.1 i).word0 &&& pageMask ≥ vaddr
  · obtain ⟨k, hk⟩ := Option.ne_none_iff_exists'.mp (h hin.1)
    simp only [pageSize_of_shift hk, Removed, Entry.Valid, hin, true_and, if_true]
  · have hnot : ¬ Removed vaddr size (s.1 i) := by
      intro hremoved
      exact hin ⟨hremoved.1, hremoved.2.1⟩
    simp only [if_neg hin, if_neg hnot]

/-- The loop of `remove_tlb` treats every entry for itself. -/
theorem foldl_removeOne {is : List (Fin tlbSize)} (hnodup : is.Nodup) (s : Entries × Word)
    (h : ∀ i ∈ is, (s.1 i).Valid → (s.1 i).Known) (j : Fin tlbSize) :
  (is.foldl (removeOne vaddr size) s).1 j
    = if j ∈ is ∧ Removed vaddr size (s.1 j) then { s.1 j with word0 := 0 } else s.1 j
  := by
  induction is generalizing s with
  | nil => simp
  | cons i is ih =>
    obtain ⟨hi, his⟩ := List.forall_mem_cons.mp h
    obtain ⟨hnot, hnodup⟩ := List.nodup_cons.mp hnodup
    have hother : ∀ j, j ≠ i → (removeOne vaddr size s i).1 j = s.1 j := by
      intro j hj
      rw [removeOne_eq hi]
      split
      case isTrue => rw [Function.update_of_ne hj]
      case isFalse => rfl
    have his' : ∀ j ∈ is, ((removeOne vaddr size s i).1 j).Valid →
        ((removeOne vaddr size s i).1 j).Known := by
      intro j hj
      rw [hother j (by rintro rfl; exact hnot hj)]
      exact his j hj
    rw [List.foldl_cons, ih hnodup _ his']
    by_cases hji : j = i
    · subst hji
      rw [if_neg (fun hboth => hnot hboth.1), removeOne_eq hi]
      by_cases hremoved : Removed vaddr size (s.1 j)
      · rw [if_pos hremoved, if_pos ⟨List.mem_cons_self, hremoved⟩, Function.update_self]
      · rw [if_neg hremoved, if_neg (fun hboth => hremoved hboth.2)]
    · rw [hother j hji]
      simp only [List.mem_cons, hji, false_or]

theorem removeTlb_apply (h : ∀ i, (tlb i).Valid → (tlb i).Known) (j : Fin tlbSize) :
  removeTlb vaddr size tlb j
    = if Removed vaddr size (tlb j) then { tlb j with word0 := 0 } else tlb j
  := by
  rw [removeTlb, foldl_removeOne (List.nodup_finRange tlbSize) _ (fun i _ => h i)]
  simp only [List.mem_finRange, true_and]

/-- A valid entry has one of the eight page sizes, and a page number that is a multiple of it. -/
def Entry.Supported (e : Entry) : Prop :=
  e.Valid → ∃ k, e.shift = some k ∧ 2 ^ k ∣ e.epn

theorem Entry.Supported.known (h : e.Supported) (hvalid : e.Valid) :
  e.Known
  := by
  obtain ⟨k, hk, -⟩ := h hvalid
  rw [Entry.Known, hk]
  exact Option.some_ne_none k

/-- An entry is removed if its page lies in the region. -/
theorem removed_iff (hvalid : e.Valid) (hk : e.shift = some k) (hdvd : 2 ^ k ∣ e.epn)
    (hsize : size ≠ 0) (hend : vaddr.toNat + size.toNat ≤ 2 ^ 32) :
  Removed vaddr size e ↔ vaddr.toNat ≤ e.epn ∧ e.epn + 2 ^ k ≤ vaddr.toNat + size.toNat
  := by
  have hle := (le_of_mem_shifts (List.mem_of_find?_eq_some hk)).2
  have hpow : 2 ^ k < 2 ^ 32 := Nat.pow_lt_pow_right (by decide) (by omega)
  have hpos : 0 < 2 ^ k := Nat.two_pow_pos k
  have hne := toNat_ne_zero hsize
  have hepn : e.epn + 2 ^ k ≤ 2 ^ 32 :=
    add_le_of_dvd (by omega) hdvd (e.word0 &&& pageMask).isLt
  have hpage : ((e.word0 &&& pageMask) + BitVec.ofNat 32 (2 ^ k) - 1).toNat
      = e.epn + 2 ^ k - 1 := by
    rw [BitVec.toNat_sub, BitVec.toNat_add, BitVec.toNat_ofNat, Nat.mod_eq_of_lt hpow]
    show (2 ^ 32 - 1 + (e.epn + 2 ^ k) % 2 ^ 32) % 2 ^ 32 = _
    omega
  have hregion : (vaddr + size - 1).toNat = vaddr.toNat + size.toNat - 1 := by
    rw [BitVec.toNat_sub, BitVec.toNat_add]
    show (2 ^ 32 - 1 + (vaddr.toNat + size.toNat) % 2 ^ 32) % 2 ^ 32 = _
    omega
  rw [Removed, pageSize_of_shift hk, ge_iff_le, BitVec.le_def, BitVec.le_def, hpage, hregion]
  show (_ ∧ vaddr.toNat ≤ e.epn ∧ _) ↔ _
  constructor
  · rintro ⟨-, hlow, hhigh⟩
    exact ⟨hlow, by omega⟩
  · rintro ⟨hlow, hhigh⟩
    exact ⟨hvalid, hlow, by omega⟩

end Removed

/-! ### A region is mapped and removed again -/

/-- What is asked of a region: its bases and its size are multiples of 1 KB, it wraps in neither
address space, there are entries for its pages, and no address of it is translated yet. -/
structure Region (tlb : Entries) (physAddr : BitVec 64) (virtAddr size : Word) : Prop where
  nonempty : size ≠ 0
  phys_dvd : 2 ^ 10 ∣ physAddr.toNat
  virt_dvd : 2 ^ 10 ∣ virtAddr.toNat
  size_dvd : 2 ^ 10 ∣ size.toNat
  congr : virtAddr.toNat % 2 ^ 28 = physAddr.toNat % 2 ^ 28
  phys_end : physAddr.toNat + size.toNat ≤ 2 ^ 36
  virt_end : virtAddr.toNat + size.toNat ≤ 2 ^ 32
  enough : ∀ l, Cover shifts physAddr.toNat size.toNat l → l.length ≤ free tlb
  clear : ∀ i va, virtAddr.toNat ≤ va → va < virtAddr.toNat + size.toNat →
    (tlb i).translate va = none

/-- Every address of the region is translated by one entry, what was added translates nothing else,
and the valid entries are as they were. -/
structure Programmed (tlb tlb' : Entries) (v p n : ℕ) : Prop where
  once : ∀ x < n, ∃ i, (tlb' i).translate (v + x) = some (p + x)
    ∧ ∀ j, j ≠ i → (tlb' j).translate (v + x) = none
  range : ∀ i, ¬ (tlb i).Valid → ∀ va, (tlb' i).translate va ≠ none → v ≤ va ∧ va < v + n
  kept : ∀ i, (tlb i).Valid → tlb' i = tlb i

/-- The same entries are valid as before, as they were, and translate what they did. -/
structure Restored (tlb tlb' : Entries) : Prop where
  valid_iff : ∀ i, (tlb' i).Valid ↔ (tlb i).Valid
  kept : ∀ i, (tlb i).Valid → tlb' i = tlb i
  translate_eq : ∀ i va, (tlb' i).translate va = (tlb i).translate va

/-- The loop ends in the state. -/
def Final (iValue : Word) (s s' : State) : Prop :=
  ∃ n, (step iValue)^[n] s = s' ∧ s'.memSize = 0

/-- It does not end in two states. -/
theorem Final.unique {s₁ s₂ : State} (h₁ : Final iValue s s₁) (h₂ : Final iValue s s₂) :
  s₁ = s₂
  := by
  obtain ⟨m, rfl, hm⟩ := h₁
  obtain ⟨n, rfl, hn⟩ := h₂
  have hstay : ∀ t : State, t.memSize = 0 → ∀ j, (step iValue)^[j] t = t := by
    intro t ht j
    have hstep : step iValue t = t := if_pos ht
    exact Function.iterate_fixed hstep j
  rcases Nat.le_total m n with hle | hle
  · rw [← Nat.sub_add_cancel hle, Function.iterate_add_apply, hstay _ hm]
  · rw [← Nat.sub_add_cancel hle, Function.iterate_add_apply, hstay _ hn]

section Region

variable {tlb tlb' : Entries} {physAddr : BitVec 64} {virtAddr size : Word}

/-- An entry translates the beginning of its page. -/
theorem Entry.translate_epn {e : Entry} (h : e.Valid) (hk : e.shift = some k) :
  e.translate e.epn ≠ none
  := by
  rw [Entry.translate, if_pos h, hk, Option.bind_some, if_pos rfl]
  exact Option.some_ne_none _

theorem Region.programmed (h : Region tlb physAddr virtAddr size)
    (hmapped : Mapped tlb tlb' virtAddr.toNat physAddr.toNat size.toNat) :
  Programmed tlb tlb' virtAddr.toNat physAddr.toNat size.toNat
  := by
  refine ⟨?_, fun i hi va => hmapped.range_of_translate hi, hmapped.old⟩
  intro x hx
  obtain ⟨i, -, htranslate, hothers⟩ := hmapped.once x hx
  refine ⟨i, htranslate, ?_⟩
  intro j hji
  by_cases hj : (tlb j).Valid
  · rw [hmapped.old j hj]
    exact h.clear j _ (Nat.le_add_right _ _) (by omega)
  · exact hothers j hj hji

/-- The page sizes of what was added are known. -/
theorem Mapped.known {v p n : ℕ} (h : Mapped tlb tlb' v p n)
    (hold : ∀ i, (tlb i).Valid → (tlb i).Known) :
  ∀ i, (tlb' i).Valid → (tlb' i).Known
  := by
  intro i hvalid
  by_cases hi : (tlb i).Valid
  · rw [h.old i hi]
    exact hold i hi
  · obtain ⟨a, k, hmaps, -⟩ := h.new i hi hvalid
    rw [Entry.Known, hmaps.shift_eq]
    exact Option.some_ne_none k

/-- `remove_tlb` disables the entries that were added, and no other. -/
theorem Region.removed_iff_new (h : Region tlb physAddr virtAddr size)
    (hmapped : Mapped tlb tlb' virtAddr.toNat physAddr.toNat size.toNat)
    (hsupported : ∀ i, (tlb i).Supported) (i : Fin tlbSize) :
  Removed virtAddr size (tlb' i) ↔ ¬ (tlb i).Valid ∧ (tlb' i).Valid
  := by
  by_cases hi : (tlb i).Valid
  · obtain ⟨k, hk, hdvd⟩ := hsupported i hi
    rw [hmapped.old i hi, removed_iff hi hk hdvd h.nonempty h.virt_end]
    constructor
    · rintro ⟨hlow, hhigh⟩
      have hpos : 0 < 2 ^ k := Nat.two_pow_pos k
      exact absurd (h.clear i _ hlow (by omega)) (Entry.translate_epn hi hk)
    · rintro ⟨hnot, -⟩
      exact absurd hi hnot
  · constructor
    · intro hremoved
      exact ⟨hi, hremoved.1⟩
    · rintro ⟨-, hvalid⟩
      obtain ⟨a, k, hmaps, hle⟩ := hmapped.new i hi hvalid
      have hdvd := hmaps.dvd_virt
      rw [← hmaps.epn_eq] at hdvd
      rw [removed_iff hvalid hmaps.shift_eq hdvd h.nonempty h.virt_end, hmaps.epn_eq]
      omega

theorem Region.restored (h : Region tlb physAddr virtAddr size)
    (hmapped : Mapped tlb tlb' virtAddr.toNat physAddr.toNat size.toNat)
    (hsupported : ∀ i, (tlb i).Supported) :
  Restored tlb (removeTlb virtAddr size tlb')
  := by
  have hknown := hmapped.known fun i => (hsupported i).known
  have hkept : ∀ i, (tlb i).Valid → removeTlb virtAddr size tlb' i = tlb i := by
    intro i hi
    rw [removeTlb_apply hknown, if_neg, hmapped.old i hi]
    rw [h.removed_iff_new hmapped hsupported]
    exact fun hboth => hboth.1 hi
  have hgone : ∀ i, ¬ (tlb i).Valid → ¬ (removeTlb virtAddr size tlb' i).Valid := by
    intro i hi
    rw [removeTlb_apply hknown]
    by_cases hvalid : (tlb' i).Valid
    · rw [if_pos ((h.removed_iff_new hmapped hsupported i).mpr ⟨hi, hvalid⟩)]
      show ¬ (0 : Word) &&& vMask = vMask
      decide
    · rwa [if_neg (fun hremoved => hvalid hremoved.1)]
  refine ⟨?_, hkept, ?_⟩
  · intro i
    by_cases hi : (tlb i).Valid
    · rw [hkept i hi]
    · exact iff_of_false (hgone i hi) hi
  · intro i va
    by_cases hi : (tlb i).Valid
    · rw [hkept i hi]
    · rw [Entry.translate_of_not_valid hi, Entry.translate_of_not_valid (hgone i hi)]

end Region

/--
**`program_tlb` maps the region, and `remove_tlb` takes exactly that back**, the latter if the older
entries have one of the eight page sizes and page numbers that are multiples of it.
-/
theorem programTlb_removeTlb {tlb : Entries} {physAddr : BitVec 64} {virtAddr size : Word}
    (iValue : Word) (h : Region tlb physAddr virtAddr size) :
  ∃ s, Final iValue (start physAddr virtAddr size tlb) s
    ∧ Programmed tlb s.tlb virtAddr.toNat physAddr.toNat size.toNat
    ∧ ((∀ i, (tlb i).Supported) → Restored tlb (removeTlb virtAddr size s.tlb))
  := by
  have henough : Enough (start physAddr virtAddr size tlb) :=
    (enough_iff _).mpr (.inr ⟨h.phys_dvd, h.size_dvd, h.phys_end, h.enough⟩)
  obtain ⟨n, hn, hmapped⟩ := exists_mapped iValue _ henough ⟨h.congr, h.virt_end⟩
  exact ⟨_, ⟨n, rfl, hn⟩, h.programmed hmapped, h.restored hmapped⟩

/-- A TLB without valid entries. -/
def emptyTlb : Entries := fun _ => ⟨0, 0, 0⟩

theorem not_valid_emptyTlb (i : Fin tlbSize) :
  ¬ (emptyTlb i).Valid
  := by
  show ¬ (0 : Word) &&& vMask = vMask
  decide

theorem cover_256MB {p : ℕ} {l : List ℕ} (hp : 2 ^ 28 ∣ p) (h : Cover shifts p (2 ^ 28) l) :
  l = [28]
  := by
  have hfit : fit shifts p (2 ^ 28) = some 28 := by
    rw [fit, shifts, List.find?_cons_of_pos]
    simpa using hp
  exact h.unique (.cons (by decide) hfit (.nil _))

theorem free_emptyTlb :
  free emptyTlb = 64
  := by
  rw [free, Finset.filter_true_of_mem fun i _ => not_valid_emptyTlb i]
  rfl

theorem Entry.translate_of_ne {e : Entry} (hk : e.shift = some k) {va : ℕ}
    (hne : e.epn / 2 ^ k ≠ va / 2 ^ k) :
  e.translate va = none
  := by
  rw [Entry.translate, hk, Option.bind_some, if_neg hne, ite_self]

/-- The peripherals, a page of 256 MB, and the flash, a page of 1 MB. -/
def ioEntry : Entry := ⟨0xe0000290, 0xe000000c, 0x3f⟩

def flashEntry : Entry := ⟨0xfff00250, 0xfff00004, 0x3f⟩

/-- The two of them are mapped. -/
def ioTlb : Entries := fun i =>
  if i.val = 0 then ioEntry else if i.val = 1 then flashEntry else emptyTlb i

theorem ioTlb_cases (i : Fin tlbSize) :
  ioTlb i = ioEntry ∨ ioTlb i = flashEntry ∨ ioTlb i = emptyTlb i
  := by
  unfold ioTlb
  split_ifs
  · exact .inl rfl
  · exact .inr (.inl rfl)
  · exact .inr (.inr rfl)

theorem supported_ioTlb (i : Fin tlbSize) :
  (ioTlb i).Supported
  := by
  rintro hvalid
  obtain h | h | h := ioTlb_cases i
  · rw [h]
    exact ⟨28, by decide, by decide⟩
  · rw [h]
    exact ⟨20, by decide, by decide⟩
  · rw [h] at hvalid
    exact absurd hvalid (not_valid_emptyTlb i)

theorem region_ioTlb :
  Region ioTlb 0x400000000 0x20000000 0x11100400
  := by
  refine ⟨by decide, by decide, by decide, by decide, rfl, by decide, by decide, ?_, ?_⟩
  · intro l hl
    -- four pages of different sizes
    have hcover : Cover shifts 0x400000000 0x11100400 [28, 24, 20, 10] :=
      .cons (by decide) rfl (.cons (by decide) rfl (.cons (by decide) rfl
        (.cons (by decide) rfl (.nil _))))
    rw [hl.unique hcover]
    decide +kernel
  · intro i va hlow hhigh
    have hlow : 0x20000000 ≤ va := hlow
    have hhigh : va < 0x20000000 + 0x11100400 := hhigh
    obtain h | h | h := ioTlb_cases i
    · have hepn : ioEntry.epn = 0xe0000000 := by decide
      rw [h]
      exact Entry.translate_of_ne (k := 28) (by decide) (by omega)
    · have hepn : flashEntry.epn = 0xfff00000 := by decide
      rw [h]
      exact Entry.translate_of_ne (k := 20) (by decide) (by omega)
    · rw [h]
      exact Entry.translate_of_not_valid (not_valid_emptyTlb i) va

theorem programTlb_removeTlb_ioTlb :
  ∃ s, Final 0 (start 0x400000000 0x20000000 0x11100400 ioTlb) s
    ∧ Programmed ioTlb s.tlb 0x20000000 0x400000000 0x11100400
    ∧ Restored ioTlb (removeTlb 0x20000000 0x11100400 s.tlb)
  := by
  obtain ⟨s, hfinal, hprogrammed, hrestored⟩ := programTlb_removeTlb 0 region_ioTlb
  exact ⟨s, hfinal, hprogrammed, hrestored supported_ioTlb⟩

/-- A page of 256 MB at the top of the address space; its page number has bits that the processor
does not look at. -/
def topEntry : Entry := ⟨0xfffffe90, 0, 0⟩

def firstIndex : Fin tlbSize := ⟨0, by decide⟩

def topTlb : Entries := Function.update emptyTlb firstIndex topEntry

theorem region_topTlb :
  Region topTlb 0 0xe0000000 0x10000000
  := by
  refine ⟨by decide, by decide, by decide, by decide, rfl, by decide, by decide, ?_, ?_⟩
  · intro l hl
    have hfree : free emptyTlb = free topTlb + 1 :=
      free_update (not_valid_emptyTlb _) (by decide : topEntry.Valid)
    rw [free_emptyTlb] at hfree
    rw [cover_256MB (by decide) hl, List.length_singleton]
    omega
  · intro i va hlow hhigh
    by_cases hi : i = firstIndex
    · subst hi
      have hshift : topEntry.shift = some 28 := by decide
      have hepn : topEntry.epn = 0xfffffc00 := by decide
      have hlow : 0xe0000000 ≤ va := hlow
      have hhigh : va < 0xe0000000 + 0x10000000 := hhigh
      rw [topTlb, Function.update_self]
      exact Entry.translate_of_ne hshift (by omega)
    · rw [topTlb, Function.update_of_ne hi]
      exact Entry.translate_of_not_valid (not_valid_emptyTlb i) va

/-- The page of 256 MB below the top is mapped, and the older entry for the top is removed with it,
as the end of its page seems to lie at the bottom. -/
theorem programTlb_removeTlb_breaks :
  ∃ (tlb : Entries) (physAddr : BitVec 64) (virtAddr size : Word),
    Region tlb physAddr virtAddr size
      ∧ ∀ s, Final 0 (start physAddr virtAddr size tlb) s →
        ¬ Restored tlb (removeTlb virtAddr size s.tlb)
  := by
  refine ⟨topTlb, 0, 0xe0000000, 0x10000000, region_topTlb, ?_⟩
  intro s hs hrestored
  have h := region_topTlb
  have henough : Enough (start 0 0xe0000000 0x10000000 topTlb) :=
    (enough_iff _).mpr (.inr ⟨h.phys_dvd, h.size_dvd, h.phys_end, h.enough⟩)
  obtain ⟨n, hn, hmapped⟩ := exists_mapped 0 _ henough ⟨h.congr, h.virt_end⟩
  obtain rfl := Final.unique ⟨n, rfl, hn⟩ hs
  have htop : topTlb firstIndex = topEntry := Function.update_self _ _ _
  have hvalid : (topTlb firstIndex).Valid := by
    rw [htop]
    decide
  have hold : ∀ i, (topTlb i).Valid → (topTlb i).Known := by
    intro i hi
    by_cases hi0 : i = firstIndex
    · rw [hi0, htop, Entry.Known]
      decide
    · rw [topTlb, Function.update_of_ne hi0] at hi
      exact absurd hi (not_valid_emptyTlb i)
  have hremoved : Removed 0xe0000000 0x10000000 topEntry := by decide
  have hsame : ((step 0)^[n] (start 0 0xe0000000 0x10000000 topTlb)).tlb firstIndex = topEntry :=
    (hmapped.old _ hvalid).trans htop
  have hgone := hrestored.kept firstIndex hvalid
  rw [removeTlb_apply (hmapped.known hold), hsame, if_pos hremoved, htop] at hgone
  exact absurd (congrArg Entry.word0 hgone) (by decide)

end Tlb
