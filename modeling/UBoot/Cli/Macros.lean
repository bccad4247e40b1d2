import UBoot.Cli.RunCommand

/-!
# The expansion of variables

What `process_macros` is for: every `${name}` and `$(name)` of a line is replaced by the value of
the variable, everything else is kept, and the result is cut to the size of the buffer.

`process_macros` does this for lines without backslashes and quotes unless, before the buffer is
full, it meets a `$` at the end of the line, a reference that does not end or ends with the bracket
of the other kind, or a second `$` in front of a reference.
-/

namespace Cli

/-! ### What is to be replaced -/

/-- The bracket that ends a name. -/
def closing (c : Byte) : Byte := if c = 40 then 41 else 125

/-- The name, when the text begins with a reference. -/
def reference : List Byte → Option (List Byte)
  | c :: b :: text =>
    if c = dollar ∧ isOpening b then
      let name := text.takeWhile (· ≠ closing b)
      if name.length < text.length then some name else none
    else none
  | _ => none

section

variable (getenv : List Byte → Option (List Byte)) (cbsize : ℕ)

/-- The value of a variable, which is empty when it is not set. -/
def value (name : List Byte) : List Byte := cstr ((getenv name).getD [])

/-- The text with its references replaced; its first `k` characters have been. -/
def replaced : ℕ → List Byte → List Byte
  | _, [] => []
  | k + 1, _ :: text => replaced k text
  | 0, c :: text =>
    match reference (c :: text) with
    | some name => value getenv name ++ replaced (name.length + 2) text
    | none => c :: replaced 0 text

/--
Nothing that `process_macros` gets wrong is in the text before `room` characters have been written;
its first `k` characters have been read.
-/
def clean : ℕ → ℕ → List Byte → Bool
  | 0, _, _ => true
  | _ + 1, _, [] => true
  | room + 1, k + 1, _ :: text => clean (room + 1) k text
  | room + 1, 0, c :: text =>
    match reference (c :: text) with
    | some name =>
      name.all (fun c => !isClosing c) && decide (name.length < cbsize)
        && clean (room + 1 - (value getenv name).length) (name.length + 2) text
    | none =>
      if c = dollar then
        match text with
        | [] => false
        | b :: rest =>
          !isOpening b && (room = 0 || (reference (b :: rest)).isNone) && clean (room - 1) 0 rest
      else clean room 0 text

end

variable {getenv : List Byte → Option (List Byte)} {cbsize : ℕ}

theorem replaced_drop (k : ℕ) (text : List Byte) :
  replaced getenv k text = replaced getenv 0 (text.drop k)
  := by
  induction k generalizing text with
  | zero => rfl
  | succ k ih =>
    cases text with
    | nil => rfl
    | cons c text => exact ih text

@[simp]
theorem clean_zero (k : ℕ) (text : List Byte) :
  clean getenv cbsize 0 k text = true
  := by
  cases text <;> rw [clean]

theorem clean_drop (room k : ℕ) (text : List Byte) :
  clean getenv cbsize room k text = clean getenv cbsize room 0 (text.drop k)
  := by
  cases room with
  | zero => rw [clean_zero, clean_zero]
  | succ room =>
    induction k generalizing text with
    | zero => rfl
    | succ k ih =>
      cases text with
      | nil => rfl
      | cons c text => exact ih text

/-- A reference, spelled out. -/
theorem reference_eq_some {text name : List Byte} (h : reference text = some name) :
  ∃ b rest, isOpening b ∧ closing b ∉ name
    ∧ text = dollar :: b :: (name ++ closing b :: rest)
  := by
  rcases text with _ | ⟨c, _ | ⟨b, text⟩⟩
  · cases h
  · cases h
  · simp only [reference] at h
    split_ifs at h with hopen hlt
    obtain rfl := Option.some.inj h
    obtain ⟨rfl, hb⟩ := hopen
    have hsplit := @List.takeWhile_append_dropWhile _ (fun c => decide (c ≠ closing b)) text
    cases hrest : text.dropWhile (· ≠ closing b) with
    | nil =>
      rw [hrest, List.append_nil] at hsplit
      rw [hsplit] at hlt
      exact absurd hlt (lt_irrefl _)
    | cons d rest =>
      have hd : d = closing b := by
        have hnot := List.head?_dropWhile_not (fun c => decide (c ≠ closing b)) text
        rw [hrest] at hnot
        simpa using hnot
      refine ⟨b, rest, hb, ?_, ?_⟩
      · intro hmem
        simpa using List.mem_takeWhile_imp hmem
      · rw [hrest, hd] at hsplit
        rw [hsplit]

/-! ### The bounds -/

theorem length_next_le {m : Macros} (h : m.output.length < cbsize) (c : Byte) (raw : List Byte) :
  (m.next getenv cbsize c raw).output.length ≤ cbsize
  := by
  rw [Macros.next]
  split <;> split_ifs <;> simp <;> omega

theorem output_next {m : Macros} (h : m.output.length ≤ cbsize) (c : Byte) (raw : List Byte) :
  m.output <+: (m.next getenv cbsize c raw).output
  := by
  have htake (more : List Byte) : m.output <+: (m.output ++ more).take cbsize := by
    rw [List.take_append, List.take_of_length_le h]
    exact List.prefix_append _ _
  rw [Macros.next]
  split <;> split_ifs
  all_goals first
    | exact List.prefix_rfl
    | exact List.prefix_append _ _
    | exact htake _

/-- A character that is not escaped. -/
theorem macroLoop_cons {c : Byte} (hc : c ≠ backslash) (input : List Byte) {m : Macros}
    (h : m.output.length < cbsize) :
  macroLoop getenv cbsize (c :: input) m
    = macroLoop getenv cbsize input (m.next getenv cbsize c [c])
  := by
  cases input with
  | nil => simp [macroLoop, hc, h]
  | cons d input => simp [macroLoop, hc, h]

/-- What has been written stays, and the buffer is not overrun. -/
theorem macroLoop_bounds (input : List Byte) {m : Macros} (h : m.output.length ≤ cbsize) :
  m.output <+: macroLoop getenv cbsize input m
    ∧ (macroLoop getenv cbsize input m).length ≤ cbsize
  := by
  induction input, m using macroLoop.induct getenv cbsize with
  | case1 m => exact ⟨List.prefix_rfl, h⟩
  | case2 c m hfull =>
    rw [macroLoop, if_pos hfull]
    exact ⟨List.prefix_rfl, h⟩
  | case3 c m hfull hesc =>
    rw [macroLoop, if_neg hfull, if_pos hesc]
    exact ⟨List.prefix_rfl, h⟩
  | case4 c m hfull hesc =>
    rw [macroLoop, if_neg hfull, if_neg hesc]
    exact ⟨output_next h c [c], length_next_le (not_le.mp hfull) c [c]⟩
  | case5 c d input m hfull =>
    rw [macroLoop, if_pos hfull]
    exact ⟨List.prefix_rfl, h⟩
  | case6 c d input m hfull hesc ih =>
    have hlt : ({ m with prev := c } : Macros).output.length < cbsize := not_le.mp hfull
    obtain ⟨hpre, hle⟩ := ih (length_next_le hlt d [c, d])
    rw [macroLoop, if_neg hfull, if_pos hesc]
    exact ⟨(output_next hlt.le d [c, d]).trans hpre, hle⟩
  | case7 c d input m hfull hesc ih =>
    obtain ⟨hpre, hle⟩ := ih (length_next_le (not_le.mp hfull) c [c])
    rw [macroLoop, if_neg hfull, if_neg hesc]
    exact ⟨(output_next h c [c]).trans hpre, hle⟩

theorem processMacros_eq_take (input : List Byte) :
  processMacros getenv cbsize input
    = (macroLoop getenv cbsize input ⟨.dollar, 0, [], []⟩).take (cbsize - 1)
  := by
  obtain ⟨-, hle⟩ := @macroLoop_bounds getenv cbsize input ⟨.dollar, 0, [], []⟩ (Nat.zero_le _)
  rw [processMacros]
  split_ifs with hlt
  · rw [List.take_of_length_le (by omega)]
  · rw [List.dropLast_eq_take]
    congr 1
    omega

/-- A full buffer is what is left. -/
theorem macroLoop_full (input : List Byte) {m : Macros} (h : m.output.length ≤ cbsize)
    (hfull : cbsize - 1 ≤ m.output.length) :
  (macroLoop getenv cbsize input m).take (cbsize - 1) = m.output.take (cbsize - 1)
  := by
  obtain ⟨⟨more, hmore⟩, -⟩ := @macroLoop_bounds getenv cbsize input m h
  rw [← hmore, List.take_append_of_le_length hfull]

/-! ### One piece of the text -/

theorem take_append_take {α : Type*} {k n : ℕ} (hk : k ≤ n) (xs ys : List α) :
  (xs.take n ++ ys).take k = (xs ++ ys).take k
  := by
  rcases le_total xs.length n with h | h
  · rw [List.take_of_length_le h]
  · have hk' : k ≤ xs.length := hk.trans h
    rw [List.take_append_of_le_length (by rw [List.length_take]; omega), List.take_take,
      Nat.min_eq_left hk, List.take_append_of_le_length hk']

/-- The name of a reference is read up to the closing bracket. -/
theorem macroLoop_closing {name rest : List Byte} {d : Byte} (hback : backslash ∉ name)
    (hname : ∀ c ∈ name, isClosing c = false) (hd : isClosing d) {m : Macros}
    (hstate : m.state = .closing) (hroom : m.output.length < cbsize) :
  ∃ varname, macroLoop getenv cbsize (name ++ d :: rest) m
    = macroLoop getenv cbsize rest
      ⟨.dollar, d, varname, (m.output ++ value getenv (m.varname ++ name)).take cbsize⟩
  := by
  induction name generalizing m with
  | nil =>
    have hne : d ≠ backslash := by
      rintro rfl
      exact absurd hd (by decide)
    refine ⟨m.varname, ?_⟩
    rw [List.nil_append, macroLoop_cons hne rest hroom]
    simp [Macros.next, hstate, hd, value]
  | cons c name ih =>
    obtain ⟨hc, hname⟩ := List.forall_mem_cons.mp hname
    rw [List.mem_cons, not_or] at hback
    have hnext : m.next getenv cbsize c [c] = { m with varname := m.varname ++ [c], prev := c } := by
      simp [Macros.next, hstate, hc]
    obtain ⟨varname, ih⟩ := @ih hback.2 hname { m with varname := m.varname ++ [c], prev := c }
      hstate hroom
    refine ⟨varname, ?_⟩
    rw [List.cons_append, macroLoop_cons (Ne.symm hback.1) _ hroom, hnext, ih, List.append_assoc]
    rfl

theorem isClosing_closing (b : Byte) :
  isClosing (closing b)
  := by
  rw [closing]
  split_ifs <;> decide

/-! ### The whole text -/

theorem clean_cons {room : ℕ} {c : Byte} {text : List Byte}
    (h : clean getenv cbsize (room + 1) 0 (c :: text)) :
  (∃ name, reference (c :: text) = some name ∧ (∀ d ∈ name, isClosing d = false)
      ∧ clean getenv cbsize (room + 1 - (value getenv name).length) 0
        (text.drop (name.length + 2)))
    ∨ (∃ b rest, reference (c :: text) = none ∧ c = dollar ∧ text = b :: rest
      ∧ isOpening b = false ∧ (room = 0 ∨ reference (b :: rest) = none)
      ∧ clean getenv cbsize (room - 1) 0 rest)
    ∨ reference (c :: text) = none ∧ c ≠ dollar ∧ clean getenv cbsize room 0 text
  := by
  rw [clean.eq_def] at h
  dsimp only at h
  cases href : reference (c :: text) with
  | some name =>
    simp only [href, Bool.and_eq_true, List.all_eq_true, Bool.not_eq_true'] at h
    obtain ⟨⟨hname, -⟩, hclean⟩ := h
    rw [clean_drop] at hclean
    exact .inl ⟨name, rfl, hname, hclean⟩
  | none =>
    simp only [href] at h
    split_ifs at h with hc
    · cases text with
      | nil => exact absurd h Bool.false_ne_true
      | cons b rest =>
        simp only [Bool.and_eq_true, Bool.not_eq_true', Bool.or_eq_true, decide_eq_true_eq,
          Option.isNone_iff_eq_none] at h
        exact .inr (.inl ⟨b, rest, rfl, hc, rfl, h.1.1, h.1.2, h.2⟩)
    · exact .inr (.inr ⟨rfl, hc, h⟩)

/-- A character outside of a reference. -/
theorem macroLoop_plain {c : Byte} (hback : c ≠ backslash) (hquote : c ≠ quote) (hc : c ≠ dollar)
    (text : List Byte) {m : Macros} (hstate : m.state = .dollar) (h : m.output.length < cbsize) :
  macroLoop getenv cbsize (c :: text) m
    = macroLoop getenv cbsize text { m with output := m.output ++ [c], prev := c }
  := by
  rw [macroLoop_cons hback text h]
  simp [Macros.next, hstate, hquote, hc]

/-- A dollar sign, up to what is done with the character behind it. -/
theorem macroLoop_dollar {b : Byte} (hback : b ≠ backslash) (text : List Byte) {m : Macros}
    (hstate : m.state = .dollar) (hprev : m.prev ≠ backslash) (h : m.output.length < cbsize) :
  macroLoop getenv cbsize (dollar :: b :: text) m
    = macroLoop getenv cbsize text
      (if isOpening b then { m with state := .closing, varname := [], prev := b }
      else { m with output := (m.output ++ [dollar, b]).take cbsize, prev := b })
  := by
  have hnext : m.next getenv cbsize dollar [dollar] = { m with state := .opening, prev := dollar } := by
    rw [Macros.next, hstate]
    dsimp only
    rw [if_neg (fun hq => absurd hq.1 (by decide)), if_pos ⟨rfl, hprev⟩]
  have hopening : ({ m with state := .opening, prev := dollar } : Macros).output.length < cbsize := h
  rw [macroLoop_cons (by decide) _ h, hnext, macroLoop_cons hback text hopening]
  congr 1
  rw [Macros.next]
  dsimp only
  split_ifs
  · rfl
  · rw [hstate]

/-- A first piece of the text, for which `w` is written; `rest` is what is left to read. -/
structure Piece (getenv : List Byte → Option (List Byte)) (cbsize : ℕ) (text : List Byte)
    (m : Macros) (w rest : List Byte) (m' : Macros) : Prop where
  suffix : rest <:+ text
  shorter : rest.length < text.length
  state : m'.state = .dollar
  prev : m'.prev ≠ backslash
  output : m'.output = (m.output ++ w).take cbsize
  loop : macroLoop getenv cbsize text m = macroLoop getenv cbsize rest m'
  replaced : (m.output ++ replaced getenv 0 text).take (cbsize - 1)
    = (m.output ++ w ++ replaced getenv 0 rest).take (cbsize - 1)
  clean : clean getenv cbsize (cbsize - 1 - m.output.length - w.length) 0 rest

section

variable {c : Byte} {text : List Byte} {m : Macros} (hstate : m.state = .dollar)
  (hprev : m.prev ≠ backslash) (hroom : m.output.length < cbsize - 1)

include hstate hprev hroom

theorem piece_reference {name : List Byte} (hback : backslash ∉ c :: text)
    (href : reference (c :: text) = some name) (hname : ∀ d ∈ name, isClosing d = false)
    (hclean : clean getenv cbsize (cbsize - 1 - m.output.length - (value getenv name).length) 0
      (text.drop (name.length + 2))) :
  ∃ m', Piece getenv cbsize (c :: text) m (value getenv name) (text.drop (name.length + 2)) m'
  := by
  have hlt : m.output.length < cbsize := by omega
  obtain ⟨b, rest, hb, -, htext⟩ := reference_eq_some href
  obtain ⟨rfl, rfl⟩ := List.cons.inj htext
  simp only [List.mem_cons, List.mem_append, not_or] at hback
  obtain ⟨varname, hloop⟩ := @macroLoop_closing getenv cbsize name rest (closing b) hback.2.2.1
    hname (isClosing_closing b) { m with state := .closing, varname := [], prev := b } rfl hlt
  have hdrop : (b :: (name ++ closing b :: rest)).drop (name.length + 2) = rest := by
    simp [List.drop_append]
  refine ⟨⟨.dollar, closing b, varname, (m.output ++ value getenv name).take cbsize⟩, ?_⟩
  constructor
  case suffix => exact (List.drop_suffix _ _).trans (List.suffix_cons _ _)
  case shorter =>
    rw [hdrop]
    simp only [List.length_cons, List.length_append]
    omega
  case state => rfl
  case prev => exact fun heq => hback.2.2.2.1 heq.symm
  case output => rfl
  case loop =>
    rw [macroLoop_dollar (Ne.symm hback.2.1) _ hstate hprev hlt, if_pos hb, hloop, hdrop]
    rfl
  case replaced =>
    rw [replaced, href]
    dsimp only
    rw [replaced_drop, List.append_assoc]
  case clean => exact hclean

theorem piece_dollar {b : Byte} {rest : List Byte} (hback : b ≠ backslash)
    (href : reference (dollar :: b :: rest) = none) (hb : isOpening b = false)
    (hnext : cbsize - 1 - m.output.length = 1 ∨ reference (b :: rest) = none)
    (hclean : clean getenv cbsize (cbsize - 1 - m.output.length - 2) 0 rest) :
  ∃ m', Piece getenv cbsize (dollar :: b :: rest) m [dollar, b] rest m'
  := by
  have hlt : m.output.length < cbsize := by omega
  refine ⟨{ m with output := (m.output ++ [dollar, b]).take cbsize, prev := b }, ?_⟩
  constructor
  case suffix => exact (List.suffix_cons _ _).trans (List.suffix_cons _ _)
  case shorter =>
    rw [List.length_cons, List.length_cons]
    omega
  case state => exact hstate
  case prev => exact hback
  case output => rfl
  case loop =>
    rw [macroLoop_dollar hback rest hstate hprev hlt, if_neg (by rw [hb]; exact Bool.false_ne_true)]
  case replaced =>
    rw [replaced, href]
    dsimp only
    rcases hnext with hone | hnext
    · -- only the dollar sign is in the buffer
      have hlen : cbsize - 1 = (m.output ++ [dollar]).length := by
        rw [List.length_append, List.length_singleton]
        omega
      have htake (more : List Byte) :
          (m.output ++ dollar :: more).take (cbsize - 1) = m.output ++ [dollar] := by
        rw [List.append_cons, hlen, List.take_left]
      rw [htake, List.append_assoc]
      exact (htake _).symm
    · rw [replaced, hnext, List.append_assoc]
      rfl
  case clean => exact hclean

omit hprev in
theorem piece_plain (hback : c ≠ backslash) (hquote : c ≠ quote) (hc : c ≠ dollar)
    (href : reference (c :: text) = none)
    (hclean : clean getenv cbsize (cbsize - 1 - m.output.length - 1) 0 text) :
  ∃ m', Piece getenv cbsize (c :: text) m [c] text m'
  := by
  have hlt : m.output.length < cbsize := by omega
  refine ⟨{ m with output := m.output ++ [c], prev := c }, ?_⟩
  constructor
  case suffix => exact List.suffix_cons _ _
  case shorter => exact Nat.lt_succ_self _
  case state => exact hstate
  case prev => exact hback
  case output =>
    rw [List.take_of_length_le]
    rw [List.length_append, List.length_singleton]
    omega
  case loop => exact macroLoop_plain hback hquote hc text hstate hlt
  case replaced =>
    rw [replaced, href, List.append_assoc]
    rfl
  case clean => exact hclean

theorem exists_piece (hback : backslash ∉ c :: text) (hquote : quote ∉ c :: text)
    (hclean : clean getenv cbsize (cbsize - 1 - m.output.length) 0 (c :: text)) :
  ∃ w rest m', Piece getenv cbsize (c :: text) m w rest m'
  := by
  obtain ⟨room, hroomeq⟩ : ∃ room, cbsize - 1 - m.output.length = room + 1 :=
    ⟨cbsize - 1 - m.output.length - 1, by omega⟩
  have hne : c ≠ backslash := (List.ne_of_not_mem_cons hback).symm
  rw [hroomeq] at hclean
  rcases clean_cons hclean with ⟨name, href, hname, hclean⟩
    | ⟨b, rest, href, rfl, rfl, hb, hnext, hclean⟩ | ⟨href, hc, hclean⟩
  · rw [← hroomeq] at hclean
    exact ⟨_, _, piece_reference hstate hprev hroom hback href hname hclean⟩
  · have hb' := (List.ne_of_not_mem_cons (List.not_mem_of_not_mem_cons hback)).symm
    refine ⟨_, _, piece_dollar hstate hprev hroom hb' href hb ?_ ?_⟩
    · rw [hroomeq]
      exact hnext.imp_left (congrArg (· + 1))
    · rw [hroomeq]
      exact hclean
  · have hc' := (List.ne_of_not_mem_cons hquote).symm
    refine ⟨_, _, piece_plain hstate hroom hne hc' hc href ?_⟩
    rw [hroomeq]
    exact hclean

end

theorem macroLoop_replaced {text : List Byte} {m : Macros} (hback : backslash ∉ text)
    (hquote : quote ∉ text) (hstate : m.state = .dollar) (hprev : m.prev ≠ backslash)
    (hle : m.output.length ≤ cbsize)
    (hclean : clean getenv cbsize (cbsize - 1 - m.output.length) 0 text) :
  (macroLoop getenv cbsize text m).take (cbsize - 1)
    = (m.output ++ replaced getenv 0 text).take (cbsize - 1)
  := by
  induction hn : text.length using Nat.strong_induction_on generalizing text m with
  | _ n ih =>
  rcases Nat.lt_or_ge m.output.length (cbsize - 1) with hroom | hfull
  · cases text with
    | nil => simp [macroLoop, replaced]
    | cons c text =>
      obtain ⟨w, rest, m', hp⟩ := exists_piece hstate hprev hroom hback hquote hclean
      rw [hp.loop, hp.replaced, ← take_append_take (Nat.sub_le cbsize 1), ← hp.output]
      apply ih rest.length (hn ▸ hp.shorter) (fun h => hback (hp.suffix.mem h))
        (fun h => hquote (hp.suffix.mem h)) hp.state hp.prev _ _ rfl
      · rw [hp.output, List.length_take]
        exact Nat.min_le_left _ _
      · rw [hp.output, List.length_take, List.length_append,
          show cbsize - 1 - min cbsize (m.output.length + w.length)
            = cbsize - 1 - m.output.length - w.length by omega]
        exact hp.clean
  · rw [macroLoop_full text hle hfull, List.take_append_of_le_length hfull]

/-- What is expected of `process_macros`. -/
structure Expands (getenv : List Byte → Option (List Byte)) (cbsize : ℕ) (input : List Byte) :
    Prop where
  output : processMacros getenv cbsize input = (replaced getenv 0 input).take (cbsize - 1)
  /-- There is room for the NUL. -/
  terminated : (processMacros getenv cbsize input).length < cbsize
  bounded : (macroLoop getenv cbsize input ⟨.dollar, 0, [], []⟩).length ≤ cbsize

theorem length_processMacros (hcbsize : 0 < cbsize) (input : List Byte) :
  (processMacros getenv cbsize input).length < cbsize
  := by
  rw [processMacros_eq_take, List.length_take]
  omega

theorem expands_of_clean (getenv : List Byte → Option (List Byte)) {cbsize : ℕ}
    (hcbsize : 0 < cbsize) {input : List Byte} (hback : backslash ∉ input) (hquote : quote ∉ input)
    (hclean : clean getenv cbsize (cbsize - 1) 0 input) :
  Expands getenv cbsize input
  := by
  constructor
  case output =>
    rw [processMacros_eq_take]
    apply macroLoop_replaced hback hquote rfl (by decide) (Nat.zero_le _)
    exact hclean
  case terminated => exact length_processMacros hcbsize input
  case bounded => exact (macroLoop_bounds input (Nat.zero_le _)).2

/-- An environment with one variable. -/
def sampleGetenv (name : List Byte) : Option (List Byte) :=
  if name = ascii "addr" then some (ascii "100000") else none

/-- References of both kinds, a variable that is not set, and a result that is cut. -/
theorem expands_of_clean_sample :
  Expands sampleGetenv 24 (ascii "go $(addr) $5 $\x7bnone\x7d; bootm $\x7baddr\x7d")
  := by
  apply expands_of_clean
  · decide
  · decide +kernel
  · decide +kernel
  · decide +kernel

/--
A `$` at the end is lost, and so is a reference that does not end; the bracket of the other kind
ends a name; behind a `$` nothing is replaced.
-/
theorem not_expands_dollar :
  ¬ Expands sampleGetenv 24 (ascii "cost $")
    ∧ ¬ Expands sampleGetenv 24 (ascii "go $\x7baddr")
    ∧ ¬ Expands sampleGetenv 24 (ascii "go $\x7baddr)\x7d")
    ∧ ¬ Expands sampleGetenv 24 (ascii "go $$\x7baddr\x7d")
  := by
  refine ⟨?_, ?_, ?_, ?_⟩ <;> intro h <;> exact absurd h.output (by decide +kernel)

end Cli
