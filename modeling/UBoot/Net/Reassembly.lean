import UBoot.Lib.Run
import UBoot.Net.Datagram

/-!
# Fragments in any order

The fragments of a packet arrive in some order, and some of them more than once.  The code has
the list of what is missing in its buffer as long as the hole at the start of the packet is not
mistaken for no hole.
-/

namespace Defrag

open Net (ipHdrSizeNoUdp)

variable {d : Datagram} {js : List ℕ} {j : ℕ} {hs pre post : List Hole} {h : Hole}

/-! ### The buffer -/

/-- The packet is the piece `j` of a datagram. -/
structure IsFragment (d : Datagram) (id j : ℕ) (ip : ℕ → Byte) : Prop where
  lt : j < d.count
  ip_len : half ip 2 = ipHdrSizeNoUdp + (d.frag j).length
  ip_id : half ip 4 = id
  offs : half ip 6 &&& ipOffs = d.off j / 8
  mfrag : half ip 6 &&& ipFlagsMfrag = 0 ↔ j + 1 = d.count
  data : Memory.Holds ip ipHdrSizeNoUdp (d.frag j)

/-- The buffer has the pieces `js`, and the list of holes is what is missing. -/
structure Inv (d : Datagram) (id : ℕ) (js : List ℕ) (s : State) (hs : List Hole) : Prop where
  holes : Holes d js hs
  linked : Linked s hs
  ip_id : half s.pktBuff 4 = id
  totalLen_ne : s.totalLen ≠ 0
  totalLen : d.count - 1 ∈ js → s.totalLen = d.bytes.length
  data : ∀ i ∈ js, i < d.count → Memory.Holds s.pktBuff (ipHdrSizeNoUdp + d.off i) (d.frag i)

/-- The end of a hole, once the piece `j` was seen. -/
def truncated (d : Datagram) (j : ℕ) (h : Hole) : Hole :=
  ⟨h.first, if j + 1 = d.count then d.off j + (d.frag j).length else h.last⟩

section

variable {id : ℕ} {s : State} {ip : ℕ → Byte}

theorem off_add_frag_lt (d : Datagram) (hj : j < d.count) :
  d.off j + (d.frag j).length < 2 ^ 16
  := by
  have hle := d.off_le hj
  unfold ipMaxudp ipPktsize at hle
  omega

theorem truncate_spec (hlinked : Linked s (pre ++ h :: post)) (hord : Ordered (pre ++ h :: post))
    (hx : IsFragment d id j ip) :
  Linked (truncate s ip h.first ((d.off j + (d.frag j).length : ℕ) : ℤ))
      (pre ++ truncated d j h :: post)
    ∧ (truncate s ip h.first ((d.off j + (d.frag j).length : ℕ) : ℤ)).totalLen
      = (if j + 1 = d.count then d.bytes.length else s.totalLen)
    ∧ SameOutside (indices (pre ++ h :: post)) s.pktBuff
      (truncate s ip h.first ((d.off j + (d.frag j).length : ℕ) : ℤ)).pktBuff
  := by
  unfold truncate truncated
  by_cases hlast : j + 1 = d.count
  · simp only [hx.mfrag.mpr hlast, if_true, if_pos hlast, Int.toNat_natCast]
    refine ⟨?_, ?_, ?_⟩
    · exact { hlinked.setLast hord (off_add_frag_lt d hx.lt) with }
    · rw [← d.off_succ hx.lt, hlast, d.off_count]
    · apply (SameOutside.refl _ _).set
      simp [indices_append, indices_cons]
  · simp only [mt hx.mfrag.mp hlast, if_false, if_neg hlast]
    exact ⟨hlinked, trivial, SameOutside.refl _ _⟩

/-- What remains of a hole when the piece is taken out of it. -/
theorem cutAt_truncated (hj : j < d.count) :
  cutAt (truncated d j h) (d.off j / 8) (d.frag j).length = front d j h ++ back d j h
  := by
  have hoff := eight_mul_off_div d hj
  have hsucc := d.off_succ hj
  unfold cutAt truncated front back
  congr 1
  · rw [hoff]
    apply if_congr _ rfl rfl
    dsimp only
    omega
  · rw [hoff]
    by_cases hlast : j + 1 = d.count
    · simp [hlast]
    · have hlt : j + 1 < d.count := by omega
      have hdvd := eight_mul_off_div d hlt
      obtain ⟨n, hn⟩ := d.dvd_frag hlt
      have hnew : d.off j / 8 + (d.frag j).length / 8 = d.off (j + 1) / 8 := by omega
      simp only [if_neg hlast, hlt, true_and, hnew, hsucc]

/-- The pieces that were there are still there. -/
theorem Inv.data_of_sameOutside {is : List ℕ} {m : ℕ → Byte} (hinv : Inv d id js s hs)
    (his : ∀ i ∈ is, ∃ k < d.count, k ∉ js ∧ d.off k = 8 * i) (hm : SameOutside is s.pktBuff m)
    {i : ℕ} (hi : i ∈ js) (hcount : i < d.count) :
  Memory.Holds m (ipHdrSizeNoUdp + d.off i) (d.frag i)
  := by
  apply (hinv.data i hi hcount).congr
  intro q hle hlt
  apply hm
  intro a ha
  obtain ⟨k, hk, hmissing, hoff⟩ := his a ha
  have hne : k ≠ i := by
    rintro rfl
    apply hmissing hi
  have := d.off_disjoint hne hk hcount
  unfold payload
  omega

/-- A piece that is put in its place is there, and so are the others. -/
theorem Inv.holds_store {m : ℕ → Byte} (hj : j < d.count)
    (hm : ∀ i ∈ js, i < d.count → Memory.Holds m (ipHdrSizeNoUdp + d.off i) (d.frag i))
    {i : ℕ} (hi : i ∈ j :: js) (hcount : i < d.count) :
  Memory.Holds (Memory.store m (ipHdrSizeNoUdp + d.off j) (d.frag j)) (ipHdrSizeNoUdp + d.off i)
    (d.frag i)
  := by
  by_cases heq : i = j
  · rw [heq]
    apply Memory.holds_store
  · have hmem : i ∈ js := (List.mem_cons.mp hi).resolve_left heq
    apply (hm i hmem hcount).store
    rcases Nat.lt_or_gt_of_ne heq with hlt | hlt
    · have := d.off_add_le hlt hj.le
      omega
    · have := d.off_add_le hlt hcount.le
      omega

/-- What remains behind the piece starts where no hole started. -/
theorem Holes.back_fresh (hholes : Holes d js (pre ++ h :: post)) (hj : j < d.count)
    (hfirst : 8 * h.first ≤ d.off j)
    (hlt : d.off j + (d.frag j).length < (truncated d j h).last) :
  d.off j / 8 + (d.frag j).length / 8 < 2 ^ 16
    ∧ d.off j / 8 + (d.frag j).length / 8 ∉ indices (pre ++ truncated d j h :: post)
    ∧ d.off j / 8 + (d.frag j).length / 8 ≠ 0
  := by
  have hmore : j + 1 ≠ d.count := by
    intro hlast
    rw [truncated, if_pos hlast] at hlt
    apply absurd hlt (Nat.lt_irrefl _)
  rw [truncated, if_neg hmore] at hlt
  replace hlt : d.off j + (d.frag j).length < h.last := hlt
  have hoff := eight_mul_off_div d hj
  have hpos := d.frag_pos hj
  have hcount := off_add_frag_lt d hj
  obtain ⟨n, hn⟩ := d.dvd_frag (i := j) (by omega)
  refine ⟨by omega, ?_, by omega⟩
  rw [indices_append, List.mem_append, not_or]
  constructor
  · intro hmem
    have := hholes.ordered.pre_lt hmem
    omega
  · intro hmem
    rcases List.mem_cons.mp hmem with heq | hmem
    · replace heq : d.off j / 8 + (d.frag j).length / 8 = h.first := heq
      omega
    · obtain ⟨x, hx, heq⟩ := List.mem_map.mp hmem
      have hsorted := (List.pairwise_append.mp hholes.sorted).2.1
      have := (List.pairwise_cons.mp hsorted).1 x hx
      omega

theorem fixHoles_truncate (hinv : Inv d id js s (pre ++ h :: post)) (hx : IsFragment d id j ip)
    (hfirst : 8 * h.first ≤ d.off j)
    (hprev : 8 * h.first = d.off j → pre ≠ [] → (indices pre).getLastD 0 ≠ 0)
    (hholes : Holes d (j :: js) (pre ++ (front d j h ++ back d j h) ++ post)) :
  ∃ r, fixHoles (truncate s ip h.first ((d.off j + (d.frag j).length : ℕ) : ℤ)) h.first
      (d.off j / 8) (d.frag j).length = r
    ∧ r.1.totalLen = (if j + 1 = d.count then d.bytes.length else s.totalLen)
    ∧ half r.1.pktBuff 4 = id
    ∧ (∀ i ∈ js, i < d.count → Memory.Holds r.1.pktBuff (ipHdrSizeNoUdp + d.off i) (d.frag i))
    ∧ (r.2 = true ∧ pre ++ (front d j h ++ back d j h) ++ post = []
      ∨ r.2 = false ∧ pre ++ (front d j h ++ back d j h) ++ post ≠ []
        ∧ Linked r.1 (pre ++ (front d j h ++ back d j h) ++ post))
  := by
  have hoff := eight_mul_off_div d hx.lt
  have hcount := off_add_frag_lt d hx.lt
  have hord := hinv.holes.ordered
  have hindices : indices (pre ++ truncated d j h :: post) = indices (pre ++ h :: post) := by
    rw [indices_append, indices_append]
    rfl
  obtain ⟨hlinked, htotal, hsame⟩ := truncate_spec hinv.linked hord hx
  have hord' : Ordered (pre ++ truncated d j h :: post) := by
    refine ⟨?_, ?_⟩
    · rw [hindices]
      exact hord.sorted
    · rw [hindices]
      exact hord.lt
  have hspec := fixHoles_spec (d.off j / 8) (d.frag j).length hlinked hord'
  have hfirst' : (truncated d j h).first = h.first := rfl
  rw [cutAt_truncated hx.lt, hoff, hindices, hfirst'] at hspec
  -- the descriptors that are written are where pieces are missing
  have htouched : ∀ i ∈ indices (pre ++ h :: post) ++ indices (front d j h ++ back d j h),
      ∃ k < d.count, k ∉ js ∧ d.off k = 8 * i := by
    intro i hi
    rcases List.mem_append.mp hi with hi | hi
    · obtain ⟨x, hx, rfl⟩ := List.mem_map.mp hi
      apply hinv.holes.start_missing hx
    · obtain ⟨x, hx, rfl⟩ := List.mem_map.mp hi
      obtain ⟨k, hk, hmissing, hoff⟩ := hholes.start_missing
        (List.mem_append_left _ (List.mem_append_right _ hx))
      exact ⟨k, hk, fun hmem => hmissing (List.mem_cons_of_mem _ hmem), hoff⟩
  have hkept : ∀ m, SameOutside (indices (pre ++ h :: post)
        ++ indices (front d j h ++ back d j h)) s.pktBuff m →
      half m 4 = id ∧ ∀ i ∈ js, i < d.count →
        Memory.Holds m (ipHdrSizeNoUdp + d.off i) (d.frag i) := by
    intro m hm
    refine ⟨?_, fun i hi hcount => hinv.data_of_sameOutside htouched hm hi hcount⟩
    rw [← hinv.ip_id]
    have hheader : ∀ q < ipHdrSizeNoUdp, m q = s.pktBuff q := by
      intro q hq
      apply hm
      intro i _
      left
      exact Nat.lt_add_right _ hq
    apply half_congr
    · apply hheader
      decide
    · apply hheader
      decide
  have hsame' := hsame.mono (List.subset_append_left _ (indices (front d j h ++ back d j h)))
  refine ⟨_, rfl, ?_⟩
  have hnew : d.off j + (d.frag j).length < (truncated d j h).last →
      d.off j / 8 + (d.frag j).length / 8 < 2 ^ 16
        ∧ d.off j / 8 + (d.frag j).length / 8 ∉ indices (pre ++ h :: post)
        ∧ d.off j / 8 + (d.frag j).length / 8 ≠ 0 := by
    intro hlt
    rw [← hindices]
    apply hinv.holes.back_fresh hx.lt hfirst hlt
  rcases hspec (fun hle => hprev (by omega)) (by omega) hnew with
    ⟨hnil, heq⟩ | ⟨hne, hdone, htotal', hlinked', hsame''⟩
  · rw [heq]
    exact ⟨htotal, (hkept _ hsame').1, (hkept _ hsame').2, .inl ⟨rfl, hnil⟩⟩
  · have hkept' := hkept _ (hsame'.trans hsame'')
    exact ⟨htotal'.trans htotal, hkept'.1, hkept'.2, .inr ⟨hdone, hne, hlinked'⟩⟩

theorem placeFragment_spec (hinv : Inv d id js s (pre ++ h :: post)) (hx : IsFragment d id j ip)
    (hfirst : 8 * h.first ≤ d.off j)
    (hprev : 8 * h.first = d.off j → pre ≠ [] → (indices pre).getLastD 0 ≠ 0)
    (hholes : Holes d (j :: js) (pre ++ (front d j h ++ back d j h) ++ post)) :
  (pre ++ (front d j h ++ back d j h) ++ post = []
      ∧ ∃ s', placeFragment s ip h.first (d.off j / 8) (d.frag j).length
          = (s', some (d.bytes.length + ipHdrSizeNoUdp))
        ∧ Memory.Holds s'.pktBuff ipHdrSizeNoUdp d.bytes)
    ∨ (pre ++ (front d j h ++ back d j h) ++ post ≠ []
      ∧ ∃ s', placeFragment s ip h.first (d.off j / 8) (d.frag j).length = (s', none)
        ∧ Inv d id (j :: js) s' (pre ++ (front d j h ++ back d j h) ++ post))
  := by
  obtain ⟨r, hr, htotal, hid, hdata, hcases⟩ := fixHoles_truncate hinv hx hfirst hprev hholes
  have hoff := eight_mul_off_div d hx.lt
  have hstop : (8 * ((d.off j / 8 : ℕ) : ℤ) + ((d.frag j).length : ℤ))
      = ((d.off j + (d.frag j).length : ℕ) : ℤ) := by omega
  have hcount := off_add_frag_lt d hx.lt
  have hread : Memory.read ip ipHdrSizeNoUdp (((d.frag j).length : ℤ) % 2 ^ 32).toNat = d.frag j := by
    have hlen : (((d.frag j).length : ℤ) % 2 ^ 32).toNat = (d.frag j).length := by omega
    rw [hlen]
    apply hx.data.read_eq
  have hpayload : payload (d.off j / 8) = ipHdrSizeNoUdp + d.off j := by
    rw [payload, hoff]
  have hdata' : ∀ i ∈ j :: js, i < d.count → Memory.Holds
      (Memory.store r.1.pktBuff (ipHdrSizeNoUdp + d.off j) (d.frag j)) (ipHdrSizeNoUdp + d.off i)
      (d.frag i) := fun i hi hcount => Inv.holds_store hx.lt hdata hi hcount
  have htotal' : d.count - 1 ∈ j :: js → r.1.totalLen = d.bytes.length := by
    intro hmem
    rw [htotal]
    split
    · rfl
    case isFalse hmore =>
      apply hinv.totalLen
      apply (List.mem_cons.mp hmem).resolve_left
      have hlt := hx.lt
      omega
  have hbytes : 0 < d.bytes.length := by
    have hpos := d.frag_pos hx.lt
    have hle := d.off_add_le hx.lt (Nat.le_refl _)
    rw [d.off_count] at hle
    omega
  unfold placeFragment
  simp only [hstop, hr, hread, hpayload]
  rcases hcases with ⟨hdone, hnil⟩ | ⟨hdone, hne, hlinked⟩
  · left
    have hcomplete : Complete d (j :: js) := by
      rw [hnil] at hholes
      apply hholes.complete_iff.mpr rfl
    have hlt := hx.lt
    rw [if_pos hdone, htotal' (hcomplete _ (by omega))]
    refine ⟨hnil, _, rfl, ?_⟩
    apply Memory.Holds.store
    · apply holds_flatten
      intro i hi
      apply hdata' i (hcomplete i hi) hi
    · right
      rw [length_halfBytes]
      decide
  · right
    rw [if_neg (by simp [hdone])]
    refine ⟨hne, _, rfl, hholes, ?_, ?_, ?_, htotal', hdata'⟩
    · apply hlinked.store
      intro i hi
      obtain ⟨x, hxs, rfl⟩ := List.mem_map.mp hi
      obtain ⟨k, hk, hmissing, hoffk⟩ := hholes.start_missing hxs
      have hne : k ≠ j := by
        rintro rfl
        apply hmissing List.mem_cons_self
      have := d.off_disjoint hne hk hx.lt
      unfold payload
      omega
    · rw [half_store_of_disjoint, hid]
      left
      unfold ipHdrSizeNoUdp
      omega
    · rw [htotal]
      split
      · exact hbytes.ne'
      · exact hinv.totalLen_ne

/-! ### One call -/

section

variable (hx : IsFragment d id j ip)

include hx

theorem netDefragment_none
    (hfind : findHole (reset s ip).pktBuff (d.off j) (2 ^ 16 + 1) (reset s ip).firstHole = some none) :
  netDefragment s ip = some (reset s ip, none)
  := by
  have hoff := eight_mul_off_div d hx.lt
  have hle := d.off_le hx.lt
  have hlen : ((half ip 2 : ℤ) - (ipHdrSizeNoUdp : ℤ)) = (d.frag j).length := by
    rw [hx.ip_len]
    omega
  unfold netDefragment
  simp only [hx.offs, hoff, hlen, hfind]
  rw [if_neg (by unfold ipMaxudp ipPktsize at *; omega)]

theorem netDefragment_some {a : ℕ}
    (hfind : findHole (reset s ip).pktBuff (d.off j) (2 ^ 16 + 1) (reset s ip).firstHole
      = some (some a)) :
  netDefragment s ip
    = if d.off j + (d.frag j).length ≤ 8 * a then some (reset s ip, none)
      else some (placeFragment (reset s ip) ip a (d.off j / 8) (d.frag j).length)
  := by
  have hoff := eight_mul_off_div d hx.lt
  have hle := d.off_le hx.lt
  have hlen : ((half ip 2 : ℤ) - (ipHdrSizeNoUdp : ℤ)) = (d.frag j).length := by
    rw [hx.ip_len]
    omega
  have hdup : (((d.off j / 8 : ℕ) : ℤ) + (((d.frag j).length : ℤ) + 7).tdiv 8 ≤ a)
      ↔ d.off j + (d.frag j).length ≤ 8 * a := by
    rw [Int.tdiv_eq_ediv_of_nonneg (by omega)]
    omega
  unfold netDefragment
  simp only [hx.offs, hoff, hlen, hfind, hdup]
  rw [if_neg (by unfold ipMaxudp ipPktsize at *; omega)]

end

/-- The piece `j` is new, and the pieces in front of it that are there are the ones from some
piece on, which is not the first one.  Then it starts the second hole, and the first one starts
at the start of the packet. -/
def LosesFirst (js : List ℕ) (j : ℕ) : Prop :=
  j ∉ js ∧ ∃ m < j, 0 < m ∧ ∀ i < j, (i ∈ js ↔ m ≤ i)

instance (js : List ℕ) (j : ℕ) : Decidable (LosesFirst js j) :=
  inferInstanceAs (Decidable (_ ∧ ∃ m, m < j ∧ _))

/-- The hole in front is not the one at the start of the packet. -/
theorem Holes.prev_ne_zero (hholes : Holes d js (pre ++ h :: post)) (hj : j < d.count)
    (hfirst : 8 * h.first = d.off j) (hgood : ¬ LosesFirst js j) (hne : pre ≠ []) :
  (indices pre).getLastD 0 ≠ 0
  := by
  intro hzero
  apply hgood
  obtain ⟨pre, q, rfl⟩ := (List.eq_nil_or_concat' pre).resolve_left hne
  replace hzero : q.first = 0 := by
    rw [indices_append, Links.getLastD_append] at hzero
    exact hzero
  have hord := hholes.ordered
  obtain ⟨hpre, hcons, hbetween⟩ := List.pairwise_append.mp hholes.sorted
  have hqh := hbetween q (by simp) h List.mem_cons_self
  have hqmem : q ∈ pre ++ [q] ++ h :: post := by simp
  have hnil : pre = [] := by
    rw [List.eq_nil_iff_forall_not_mem]
    intro x hx
    have := (List.pairwise_append.mp hpre).2.2 x hx q (by simp)
    omega
  subst hnil
  -- the first hole ends with a piece, since another hole is behind it
  obtain ⟨m, hm, hoffm⟩ : ∃ m < d.count, d.off m = q.last := by
    rcases hholes.stop q hqmem with hlast | hlast
    · have := off_add_frag_lt d hj
      omega
    · exact hlast
  have hqlt := hholes.lt q hqmem
  have hmj : m < j := d.lt_of_off_lt (by omega) hm.le
  have hmissing : ∀ i ≤ j, i ∉ js ↔ (i < m ∨ i = j) := by
    intro i hij
    rw [hholes.missing i (by omega)]
    constructor
    · rintro ⟨x, hx, hx₁, hx₂⟩
      rcases List.mem_append.mp hx with hx | hx
      · obtain rfl := List.mem_singleton.mp hx
        left
        apply d.lt_of_off_lt (by omega)
        omega
      · right
        have hge : d.off j ≤ d.off i := by
          rcases List.mem_cons.mp hx with rfl | hx
          · omega
          · have hlast := (List.pairwise_cons.mp hcons).1 x hx
            have hh := hholes.lt h (by simp)
            omega
        by_contra hne
        have := d.off_lt (i := i) (j := j) (by omega) hj.le
        omega
    · rintro (hlt | rfl)
      · refine ⟨q, hqmem, by omega, ?_⟩
        rw [← hoffm]
        apply d.off_lt hlt hm.le
      · refine ⟨h, by simp, hfirst.le, ?_⟩
        rw [← hfirst]
        apply hholes.lt h (by simp)
  refine ⟨(hmissing j (Nat.le_refl j)).mpr (.inr rfl), m, hmj, ?_, ?_⟩
  · rcases Nat.eq_zero_or_pos m with rfl | hpos
    · rw [d.off_zero] at hoffm
      omega
    · exact hpos
  · intro i hi
    have := hmissing i hi.le
    rw [not_iff_comm] at this
    rw [← this]
    omega

/-- The first hole that does not end before `start`, if there is one. -/
theorem exists_first (hs : List Hole) (start : ℕ) :
  (∀ x ∈ hs, x.last < start)
    ∨ ∃ pre h post, hs = pre ++ h :: post ∧ (∀ x ∈ pre, x.last < start) ∧ start ≤ h.last
  := by
  induction hs with
  | nil => exact .inl nofun
  | cons h hs ih =>
    by_cases hlt : h.last < start
    · rcases ih with hall | ⟨pre, h', post, rfl, hpre, hh'⟩
      · left
        simpa [hlt] using hall
      · right
        refine ⟨h :: pre, h', post, rfl, ?_, hh'⟩
        simpa [hlt] using hpre
    · right
      exact ⟨[], h, hs, rfl, nofun, Nat.le_of_not_lt hlt⟩

/-- A piece that is there already changes nothing. -/
theorem Holes.again (hholes : Holes d js hs) (hj : j ∈ js) :
  Holes d (j :: js) hs
  := by
  refine { hholes with missing := ?_ }
  intro i hi
  rw [← hholes.missing i hi, List.mem_cons]
  constructor
  · exact fun hnot hmem => hnot (.inr hmem)
  · rintro hnot (rfl | hmem)
    · apply hnot hj
    · apply hnot hmem

theorem Inv.again (hinv : Inv d id js s hs) (hj : j ∈ js) :
  Inv d id (j :: js) s hs
  := by
  have hmem : ∀ i, i ∈ j :: js ↔ i ∈ js := by
    intro i
    rw [List.mem_cons]
    constructor
    · rintro (rfl | hi)
      · exact hj
      · exact hi
    · exact .inr
  refine { hinv with holes := hinv.holes.again hj, totalLen := ?_, data := ?_ }
  · rw [hmem]
    exact hinv.totalLen
  · intro i hi
    rw [hmem] at hi
    apply hinv.data i hi

/-- What a call returns, and what is in the buffer then. -/
def Outcome (d : Datagram) (id : ℕ) (js : List ℕ) (r : Option (State × Option ℕ)) : Prop :=
  (Complete d js ∧ ∃ s', r = some (s', some (d.bytes.length + ipHdrSizeNoUdp))
      ∧ Memory.Holds s'.pktBuff ipHdrSizeNoUdp d.bytes)
    ∨ (¬ Complete d js ∧ ∃ s' hs', r = some (s', none) ∧ Inv d id js s' hs')

theorem outcome_placeFragment (hinv : Inv d id js s (pre ++ h :: post))
    (hx : IsFragment d id j ip) (hfirst : 8 * h.first ≤ d.off j)
    (hprev : 8 * h.first = d.off j → pre ≠ [] → (indices pre).getLastD 0 ≠ 0)
    (hholes : Holes d (j :: js) (pre ++ (front d j h ++ back d j h) ++ post)) :
  Outcome d id (j :: js)
    (some (placeFragment s ip h.first (d.off j / 8) (d.frag j).length))
  := by
  rcases placeFragment_spec hinv hx hfirst hprev hholes with
    ⟨hnil, s', hs', hdata⟩ | ⟨hne, s', hs', hinv'⟩
  · left
    refine ⟨hholes.complete_iff.mpr hnil, s', ?_, hdata⟩
    rw [hs']
  · right
    refine ⟨fun hcomplete => hne (hholes.complete_iff.mp hcomplete), s', _, ?_, hinv'⟩
    rw [hs']

/-- A piece that was missing. -/
theorem Inv.step_new (hinv : Inv d id js (reset s ip) hs) (hx : IsFragment d id j ip)
    (hj : j ∉ js) (hgood : ¬ LosesFirst js j) :
  Outcome d id (j :: js) (netDefragment s ip)
  := by
  obtain ⟨h, hh, hfirst, hlast⟩ := (hinv.holes.missing j hx.lt).mp hj
  obtain ⟨pre, post, rfl⟩ := List.append_of_mem hh
  have hpos := d.frag_pos hx.lt
  have hpre : ∀ x ∈ pre, x.last < d.off j := by
    intro x hx
    have := (List.pairwise_append.mp hinv.holes.sorted).2.2 x hx h List.mem_cons_self
    omega
  rw [netDefragment_some hx (hinv.linked.findHole_eq hinv.holes.ordered hpre hlast.le),
    if_neg (by omega)]
  apply outcome_placeFragment hinv hx hfirst
  · intro heq hne
    apply hinv.holes.prev_ne_zero hx.lt heq hgood hne
  · apply hinv.holes.cut hx.lt hfirst hlast

/-- A piece that is there already. -/
theorem Inv.step_again (hinv : Inv d id js (reset s ip) hs) (hx : IsFragment d id j ip)
    (hne : hs ≠ []) (hj : j ∈ js) :
  Outcome d id (j :: js) (netDefragment s ip)
  := by
  have hagain := hinv.again hj
  have hincomplete : ¬ Complete d (j :: js) := fun hcomplete =>
    hne (hagain.holes.complete_iff.mp hcomplete)
  have hpos := d.frag_pos hx.lt
  rcases exists_first hs (d.off j) with hall | ⟨pre, h, post, rfl, hpre, hlast⟩
  · rw [netDefragment_none hx (hinv.linked.findHole_none hinv.holes.ordered hne hall)]
    exact .inr ⟨hincomplete, _, _, rfl, hagain⟩
  · have hmem : h ∈ pre ++ h :: post := by simp
    have hlt := hinv.holes.lt h hmem
    have houtside : ¬ (8 * h.first ≤ d.off j ∧ d.off j < h.last) := fun hin =>
      ((hinv.holes.missing j hx.lt).mpr ⟨h, hmem, hin⟩) hj
    rw [netDefragment_some hx (hinv.linked.findHole_eq hinv.holes.ordered hpre hlast)]
    split
    · exact .inr ⟨hincomplete, _, _, rfl, hagain⟩
    case isFalse hgt =>
      have hfirst : 8 * h.first ≤ d.off j := by
        obtain ⟨i, hi, hoff⟩ := hinv.holes.start h hmem
        by_contra hgt'
        have hji := d.lt_of_off_lt (i := j) (j := i) (by omega) hx.lt.le
        have := d.off_add_le hji hi.le
        omega
      have heq : h.last = d.off j := by omega
      have hsucc := d.off_succ hx.lt
      have hcut : front d j h ++ back d j h = [h] := by
        unfold front back
        rw [if_pos (by omega), if_neg (by omega), ← heq]
        rfl
      apply outcome_placeFragment hinv hx hfirst
      · omega
      · rw [hcut, List.append_assoc]
        exact hagain.holes

/-- **One call.** -/
theorem Inv.step (hinv : Inv d id js (reset s ip) hs) (hx : IsFragment d id j ip)
    (hincomplete : ¬ Complete d js) (hgood : ¬ LosesFirst js j) :
  Outcome d id (j :: js) (netDefragment s ip)
  := by
  by_cases hj : j ∈ js
  · apply hinv.step_again hx _ hj
    intro hnil
    apply hincomplete (hinv.holes.complete_iff.mpr hnil)
  · apply hinv.step_new hx hj hgood

/-! ### Runs -/

/-- A fragment that arrives. -/
structure Delivery (d : Datagram) (id : ℕ) where
  index : ℕ
  ip : ℕ → Byte
  isFragment : IsFragment d id index ip

/-- The pieces that arrived. -/
def arrived (xs : List (Delivery d id)) : List ℕ := xs.map Delivery.index

/-- The state after a call. -/
def deliver (s : State) (x : Delivery d id) : Option State := (netDefragment s x.ip).map Prod.fst

/-- No fragment of the packet is in the buffer. -/
def Fresh (id : ℕ) (s : State) : Prop := s.totalLen = 0 ∨ half s.pktBuff 4 ≠ id

/-- After the fragments `xs`, of which none completes the datagram, the call for the fragment `x`
returns no packet, or, if this one completes it, all of the datagram. -/
def Reassembles (s : State) (xs : List (Delivery d id)) (x : Delivery d id) : Prop :=
  ∃ s' s'' r, Run.exec deliver s xs = some s' ∧ netDefragment s' x.ip = some (s'', r)
    ∧ (¬ Complete d (arrived (xs ++ [x])) → r = none)
    ∧ (Complete d (arrived (xs ++ [x])) → r = some (d.bytes.length + ipHdrSizeNoUdp)
      ∧ Memory.Holds s''.pktBuff ipHdrSizeNoUdp d.bytes)

/-- The buffer is ready for another fragment. -/
def Ready (d : Datagram) (id : ℕ) (js : List ℕ) (s : State) : Prop :=
  ∀ ip, half ip 4 = id → ∃ hs, Inv d id js (reset s ip) hs

theorem reset_eq_self (hinv : Inv d id js s hs) (hip : half ip 4 = id) :
  reset s ip = s
  := by
  unfold reset
  rw [if_neg]
  rintro (hzero | hne)
  · apply hinv.totalLen_ne hzero
  · apply hne
    rw [hinv.ip_id, hip]

theorem Inv.ready (hinv : Inv d id js s hs) :
  Ready d id js s
  := by
  intro ip hip
  rw [reset_eq_self hinv hip]
  exact ⟨hs, hinv⟩

theorem store_header (m ip : ℕ → Byte) {q : ℕ} (hq : q < ipHdrSizeNoUdp) :
  Memory.store m 0 (Memory.read ip 0 ipHdrSizeNoUdp) q = ip q
  := by
  rw [Memory.store_zero_of_lt m (by rwa [Memory.length_read]), Memory.getElem_read, Nat.zero_add]

/-- A new packet is one hole. -/
theorem Fresh.linked (hfresh : Fresh (half ip 4) s) :
  Linked (reset s ip) [⟨0, 0xffff⟩]
  := by
  have hget : ∀ m i f, get (Memory.store m 0 (Memory.read ip 0 ipHdrSizeNoUdp)) i f = get m i f := by
    intro m i f
    apply half_store_of_disjoint
    right
    rw [Memory.length_read]
    unfold payload
    omega
  have hreset : s.totalLen = 0 ∨ half s.pktBuff 4 ≠ half ip 4 := hfresh
  unfold reset
  rw [if_pos hreset]
  refine ⟨rfl, ⟨?_, ?_, trivial⟩, ?_⟩
  · dsimp only
    rw [hget, get_set_of_ne _ (.inr (by decide)), get_set_self _ _ _ (by decide)]
    rfl
  · dsimp only
    rw [hget, get_set_self _ _ _ (by decide)]
  · intro h hh
    obtain rfl := List.mem_singleton.mp hh
    dsimp only
    rw [hget, get_set_of_ne _ (.inr (by decide)), get_set_of_ne _ (.inr (by decide)),
      get_set_self _ _ _ (by decide)]

theorem Fresh.ready (hfresh : Fresh id s) :
  Ready d id [] s
  := by
  intro ip hip
  have hreset : s.totalLen = 0 ∨ half s.pktBuff 4 ≠ half ip 4 := by
    rw [hip]
    exact hfresh
  have hhole : (⟨0, 0xffff⟩ : Hole) ∈ [(⟨0, 0xffff⟩ : Hole)] := List.mem_cons_self
  refine ⟨[⟨0, 0xffff⟩], ⟨List.pairwise_singleton _ _, ?_, ?_, ?_, ?_⟩, Fresh.linked hreset,
    ?_, ?_, nofun, nofun⟩
  · intro h hh
    obtain rfl := List.mem_singleton.mp hh
    exact ⟨0, Nat.zero_lt_of_lt d.two_le, rfl⟩
  · intro h hh
    obtain rfl := List.mem_singleton.mp hh
    exact .inl rfl
  · intro h hh
    obtain rfl := List.mem_singleton.mp hh
    decide
  · intro i hi
    have hlt := off_add_frag_lt d hi
    constructor
    · intro _
      refine ⟨_, hhole, Nat.zero_le _, ?_⟩
      have hlen : 0 < (d.frag i).length := d.frag_pos hi
      dsimp only
      omega
    · exact fun _ => List.not_mem_nil
  · unfold reset
    rw [← hip, if_pos hreset]
    dsimp only
    apply half_congr
    · apply store_header
      decide
    · apply store_header
      decide
  · unfold reset
    rw [if_pos hreset]
    exact Nat.succ_ne_zero _

theorem arrived_append (xs ys : List (Delivery d id)) :
  arrived (xs ++ ys) = arrived xs ++ arrived ys
  := List.map_append

theorem complete_reverse {js : List ℕ} :
  Complete d js.reverse ↔ Complete d js
  := by
  simp only [Complete, List.mem_reverse]

theorem losesFirst_reverse {js : List ℕ} :
  LosesFirst js.reverse j ↔ LosesFirst js j
  := by
  simp only [LosesFirst, List.mem_reverse]

/-- One more fragment. -/
theorem Ready.step {xs : List (Delivery d id)} (hready : Ready d id (arrived xs).reverse s)
    (hincomplete : ¬ Complete d (arrived xs)) (x : Delivery d id)
    (hgood : ¬ LosesFirst (arrived xs) x.index) :
  Outcome d id (arrived (xs ++ [x])).reverse (netDefragment s x.ip)
  := by
  obtain ⟨hs, hinv⟩ := hready x.ip x.isFragment.ip_id
  have hstep := hinv.step x.isFragment (mt complete_reverse.mp hincomplete)
    (mt losesFirst_reverse.mp hgood)
  rw [arrived_append, List.reverse_append]
  exact hstep

/-- The fragments so far are in the buffer. -/
theorem exec_ready (hfresh : Fresh id s) (xs : List (Delivery d id))
    (hincomplete : ¬ Complete d (arrived xs))
    (hgood : ∀ pre y post, xs = pre ++ y :: post → ¬ LosesFirst (arrived pre) y.index) :
  ∃ s', Run.exec deliver s xs = some s' ∧ Ready d id (arrived xs).reverse s'
  := by
  induction xs using List.reverseRecOn with
  | nil => exact ⟨s, rfl, hfresh.ready⟩
  | append_singleton xs x ih =>
    have hincomplete' : ¬ Complete d (arrived xs) := by
      intro hcomplete
      apply hincomplete
      intro i hi
      rw [arrived_append]
      exact List.mem_append_left _ (hcomplete i hi)
    have hgood' : ∀ pre y post, xs = pre ++ y :: post → ¬ LosesFirst (arrived pre) y.index := by
      rintro pre y post rfl
      apply hgood pre y (post ++ [x])
      simp
    obtain ⟨s', hs', hready⟩ := ih hincomplete' hgood'
    rcases hready.step hincomplete' x (hgood xs x [] rfl) with ⟨hcomplete, -⟩ | ⟨-, s'', hs, hs'', hinv⟩
    · apply absurd (complete_reverse.mp hcomplete) hincomplete
    · refine ⟨s'', ?_, hinv.ready⟩
      rw [Run.exec_append, hs']
      simp [Run.exec, deliver, hs'']

/-- **Reassembly.**  Whatever the order of the fragments is, and however often each of them
arrives, the calls return no packet until all of them are there, and then the datagram, as long
as no fragment arrives that makes the code lose the hole at the start. -/
theorem netDefragment_reassembles (d : Datagram) (id : ℕ) (s : State) (hfresh : Fresh id s)
    (xs : List (Delivery d id)) (x : Delivery d id) (hincomplete : ¬ Complete d (arrived xs))
    (hgood : ∀ pre y post, xs ++ [x] = pre ++ y :: post → ¬ LosesFirst (arrived pre) y.index) :
  Reassembles s xs x
  := by
  have hgood' : ∀ pre y post, xs = pre ++ y :: post → ¬ LosesFirst (arrived pre) y.index := by
    rintro pre y post rfl
    apply hgood pre y (post ++ [x])
    simp
  obtain ⟨s', hs', hready⟩ := exec_ready hfresh xs hincomplete hgood'
  rcases hready.step hincomplete x (hgood xs x [] rfl) with
    ⟨hcomplete, s'', hs'', hdata⟩ | ⟨hcomplete, s'', hs, hs'', -⟩
  · rw [complete_reverse] at hcomplete
    exact ⟨s', s'', _, hs', hs'', fun hnot => absurd hcomplete hnot, fun _ => ⟨rfl, hdata⟩⟩
  · rw [complete_reverse] at hcomplete
    exact ⟨s', s'', _, hs', hs'', fun _ => rfl, fun hc => absurd hc hcomplete⟩

end

/-- A fragment with nothing in its header that the code does not read. -/
def fragment (d : Datagram) (id j : ℕ) : ℕ → Byte :=
  let header := [0x45, 0] ++ halfBytes (ipHdrSizeNoUdp + (d.frag j).length) ++ halfBytes id
    ++ halfBytes (d.off j / 8 + if j + 1 = d.count then 0 else ipFlagsMfrag) ++ List.replicate 12 0
  fun p => (header ++ d.frag j).getD p 0

/-- Three pieces, of 8, 8 and 3 bytes. -/
def threePieces : Datagram where
  frags := [[1, 2, 3, 4, 5, 6, 7, 8], [11, 12, 13, 14, 15, 16, 17, 18], [21, 22, 23]]
  two_le := by decide
  ne_nil := by decide
  dvd := by decide
  length_le := by decide

theorem isFragment_threePieces (j : Fin 3) :
  IsFragment threePieces 7 j (fragment threePieces 7 j)
  := by
  have hread : ∀ j : Fin 3, Memory.read (fragment threePieces 7 j) ipHdrSizeNoUdp
      (threePieces.frag j).length = threePieces.frag j := by decide +kernel
  have hheader : ∀ j : Fin 3, half (fragment threePieces 7 j) 2
        = ipHdrSizeNoUdp + (threePieces.frag j).length
      ∧ half (fragment threePieces 7 j) 4 = 7
      ∧ half (fragment threePieces 7 j) 6 &&& ipOffs = threePieces.off j / 8
      ∧ (half (fragment threePieces 7 j) 6 &&& ipFlagsMfrag = 0
        ↔ (j : ℕ) + 1 = threePieces.count) := by decide +kernel
  obtain ⟨hlen, hid, hoffs, hmfrag⟩ := hheader j
  refine ⟨j.isLt, hlen, hid, hoffs, hmfrag, ?_⟩
  rw [← hread j]
  apply Memory.holds_read

/-- The piece `j` of the three. -/
def piece (j : Fin 3) : Delivery threePieces 7 :=
  ⟨j, fragment threePieces 7 j, isFragment_threePieces j⟩

/-- A buffer that was not used. -/
def emptyBuffer : State := ⟨fun _ => 0, 0, 0⟩

/-- The last piece, the first one twice, and the second one. -/
theorem netDefragment_reassembles_three :
  Reassembles emptyBuffer [piece 2, piece 0, piece 0] (piece 1)
  := by
  apply netDefragment_reassembles threePieces 7 emptyBuffer (.inl rfl) [piece 2, piece 0, piece 0]
    (piece 1)
  · decide +kernel
  · intro pre y post h
    rcases pre with _ | ⟨a, _ | ⟨b, _ | ⟨c, _ | ⟨e, pre⟩⟩⟩⟩
    · cases h
      decide +kernel
    · cases h
      decide +kernel
    · cases h
      decide +kernel
    · cases h
      decide +kernel
    · simp at h

/-- The second and the third piece are taken for all of the packet. -/
theorem netDefragment_without_first :
  ¬ ∀ (d : Datagram) (id : ℕ) (s : State), Fresh id s → ∀ (xs : List (Delivery d id))
    (x : Delivery d id), ¬ Complete d (arrived xs) → Reassembles s xs x
  := by
  intro h
  obtain ⟨s', s'', r, hs', hs'', hnone, -⟩ := h threePieces 7 emptyBuffer (.inl rfl) [piece 1]
    (piece 2) (by decide +kernel)
  have hr : ((Run.exec deliver emptyBuffer [piece 1]).bind
      fun s => (netDefragment s (piece 2).ip).map Prod.snd) = some (some 39) := by
    decide +kernel
  rw [hs', Option.bind_some, hs'', hnone (by decide +kernel)] at hr
  cases hr

end Defrag
