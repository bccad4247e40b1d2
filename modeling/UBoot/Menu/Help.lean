import Mathlib.Data.Nat.Find
import UBoot.Lib.Memory
import UBoot.Lib.Walk
import UBoot.Lib.Words

/-!
# The help of a menu item

`menu_draw_help` of `board/ACube/menu/menu.c` copies the help text into a buffer and draws it line
by line: it writes a NUL behind the last word that ends within a line, and goes on behind the
blanks there.  What is drawn is the whole text as long as no word is wider than a line and no line
is exactly full.
-/

namespace Menu

open Memory StateTransition

/-! ### The loop -/

/-- `' '`. -/
def blank : Byte := 32

/-- The width of a line. -/
def helpWidth : ℕ := 72

/-- The size of `buffer`. -/
def helpSize : ℕ := 80 * 4

/-- The variables of `menu_draw_help`, with the memory from `buffer` on, the lines drawn up to now,
each with its row, and whether it has returned. -/
structure Help where
  buffer : ℕ → Byte
  pText : ℕ
  pBreak : ℕ
  pStart : ℕ
  inWord : Bool
  line : ℕ
  drawn : List (List Byte × ℕ)
  returned : Bool

namespace Help

/-- `while (p_break < p_text && *p_break == ' ') p_break++`. -/
def skipBlanks (buffer : ℕ → Byte) (pText pBreak : ℕ) : ℕ :=
  if pBreak < pText ∧ buffer pBreak = blank then skipBlanks buffer pText (pBreak + 1) else pBreak
termination_by pText - pBreak

/-- The first part of the loop: a blank behind a word is where the line may be broken. -/
def scan (h : Help) : Help :=
  if h.buffer h.pText = blank ∧ h.inWord = true then { h with inWord := false, pBreak := h.pText }
  else if h.buffer h.pText ≠ blank then { h with inWord := true }
  else h

/-- `video_draw_text` draws the characters from `p_start` up to the NUL. -/
def drawText (h : Help) : Help :=
  let text := (read h.buffer h.pStart (h.pBreak + 1 - h.pStart)).takeWhile (· ≠ 0)
  { h with drawn := h.drawn ++ [(text, h.line)], line := h.line + 1 }

/-- The second part of the loop. -/
def flush (h : Help) : Help :=
  let h := if h.buffer h.pText = 0 then { h with pBreak := h.pText } else h
  let h := { h with buffer := Function.update h.buffer h.pBreak 0 }
  let h := h.drawText
  -- this byte may be the one that has just been overwritten
  if h.buffer h.pText = 0 then { h with returned := true }
  else
    let pBreak := skipBlanks h.buffer h.pText (h.pBreak + 1)
    { h with pBreak := pBreak, pStart := pBreak, returned := decide (h.buffer pBreak = 0) }

/-- One round of the loop. -/
def round (h : Help) : Help :=
  let h := h.scan
  if h.pText - h.pStart ≥ helpWidth ∨ h.buffer h.pText = 0 then h.flush
  else { h with pText := h.pText + 1 }

/-- The rounds, until it returns. -/
def step (h : Help) : Option Help := if h.returned then none else some h.round

/-- `menu_draw_help` up to the loop; there is nothing to do if there is no item or no text. -/
def start (buffer : ℕ → Byte) (helpText : Option (List Byte)) : Help where
  buffer := helpText.elim buffer fun text => store buffer 0 (text ++ [0])
  pText := 0
  pBreak := 0
  pStart := 0
  inWord := true
  line := 20
  drawn := []
  returned := helpText.isNone

end Help

/-! ### What it stands for -/

open Words

/-- A word ends in front of a position. -/
def WordEnds (text : List Byte) (i : ℕ) : Prop := text[i]? = some blank ∧ text[i - 1]? ≠ some blank

instance (text : List Byte) : DecidablePred (WordEnds text) :=
  fun _ => inferInstanceAs (Decidable (_ ∧ _))

/-- Where a line is broken: behind the last word that ends within it. -/
def lineEnd (text : List Byte) : ℕ := Nat.findGreatest (WordEnds text) helpWidth

/-- The other blanks that follow there, up to the width of the line. -/
def lineBlanks (text : List Byte) : List Byte :=
  ((text.take helpWidth).drop (lineEnd text + 1)).takeWhile (· = blank)

/-- Where the next line begins: behind these blanks. -/
def nextStart (text : List Byte) : ℕ := lineEnd text + 1 + (lineBlanks text).length

/-- What is left of a text behind its first line, if there is more than a line, and the line is not
full. -/
def nextLine (text : List Byte) : Option (List Byte) :=
  if helpWidth < text.length ∧ lineEnd text < helpWidth then some (text.drop (nextStart text))
  else none

/-- A line that is full is the last one: only blanks follow. -/
def EndsFull (text : List Byte) : Prop :=
  helpWidth < text.length → lineEnd text = helpWidth → ∀ c ∈ text.drop helpWidth, c = blank

/-- The characters of a text that are no blanks. -/
def letters (text : List Byte) : List Byte := text.filter (· ≠ blank)

/-- A text is drawn: its lines go from row 20 on downwards, each has at most 72 characters, together
they have the characters of the text, and its words if these fit into lines.  Nothing is written
behind the buffer. -/
structure Draws (buffer₀ : ℕ → Byte) (text : List Byte) (h : Help) : Prop where
  rows : h.drawn.map Prod.snd = List.range' 20 h.drawn.length
  width : ∀ line ∈ h.drawn.map Prod.fst, line.length ≤ helpWidth
  chars : letters (h.drawn.map Prod.fst).flatten = letters text
  words : (∀ w ∈ words (· = blank) text, w.length ≤ helpWidth) →
    (h.drawn.map Prod.fst).flatMap (words (· = blank)) = words (· = blank) text
  behind : ∀ a, helpSize ≤ a → h.buffer a = buffer₀ a

/-- The lines that are drawn of a text. -/
def linesOf (text : List Byte) : List (List Byte) :=
  if text.length ≤ helpWidth then [text]
  else if lineEnd text = helpWidth then [text.take helpWidth]
  else text.take (lineEnd text) :: linesOf (text.drop (nextStart text))
termination_by text.length
decreasing_by
  rw [List.length_drop, nextStart]
  omega

/-- The lines have all the characters of the text. -/
def Kept (text : List Byte) : Prop := letters (linesOf text).flatten = letters text

variable {text rest : List Byte}

/-! ### One line -/

theorem lineEnd_le (text : List Byte) :
  lineEnd text ≤ helpWidth
  := Nat.findGreatest_le _

theorem getElem?_lineEnd (h : 0 < lineEnd text) :
  text[lineEnd text]? = some blank
  := by
  have hends := (Nat.findGreatest_eq_iff.mp (Eq.refl (lineEnd text))).2.1 h.ne'
  exact hends.1

theorem lineBlanks_prefix_drop (text : List Byte) :
  lineBlanks text <+: (text.take helpWidth).drop (lineEnd text + 1)
  := List.takeWhile_prefix _

theorem eq_blank_of_mem_lineBlanks {c : Byte} (h : c ∈ lineBlanks text) :
  c = blank
  := of_decide_eq_true (List.all_eq_true.mp List.all_takeWhile c h)

theorem nextStart_le (h : lineEnd text < helpWidth) :
  nextStart text ≤ helpWidth
  := by
  have hle := (lineBlanks_prefix_drop text).length_le
  rw [List.length_drop, List.length_take] at hle
  rw [nextStart]
  omega

/-- A text is its first line, the character that is overwritten, blanks, and the next lines. -/
theorem eq_append_nextStart (h : helpWidth < text.length) :
  ∃ x, text[lineEnd text]? = some x
    ∧ text = text.take (lineEnd text) ++ x :: (lineBlanks text ++ text.drop (nextStart text))
  := by
  have hlt := (lineEnd_le text).trans_lt h
  have hblanks : lineBlanks text <+: text.drop (lineEnd text + 1) :=
    (lineBlanks_prefix_drop text).trans ((List.take_prefix _ text).drop _)
  have hdrop : text.drop (nextStart text)
      = (text.drop (lineEnd text + 1)).drop (lineBlanks text).length := by
    rw [List.drop_drop]
    rfl
  refine ⟨text[lineEnd text], List.getElem?_eq_getElem hlt, ?_⟩
  rw [hdrop, List.prefix_iff_eq_append.mp hblanks, ← List.drop_eq_getElem_cons hlt,
    List.take_append_drop]

/-- If no word ends within a line that begins with a letter, it has no blank. -/
theorem ne_blank_of_lineEnd (hzero : lineEnd text = 0) (hhead : text[0]? ≠ some blank) :
  ∀ c ∈ text.take (helpWidth + 1), c ≠ blank
  := by
  have hnone := Nat.findGreatest_eq_zero_iff.mp hzero
  have hall : ∀ i ≤ helpWidth, text[i]? ≠ some blank := by
    intro i
    induction i with
    | zero => exact fun _ => hhead
    | succ i ih =>
      intro hi heq
      exact hnone (Nat.succ_pos i) hi ⟨heq, ih (Nat.le_of_succ_le hi)⟩
  intro c hc heq
  obtain ⟨i, hi, hget⟩ := List.mem_take_iff_getElem.mp hc
  apply hall i (by omega)
  rw [← heq, ← hget]
  apply List.getElem?_eq_getElem

/-! ### The lines of a text -/

theorem letters_append (s t : List Byte) :
  letters (s ++ t) = letters s ++ letters t
  := List.filter_append ..

theorem letters_of_blanks {blanks : List Byte} (h : ∀ c ∈ blanks, c = blank) :
  letters blanks = []
  := by
  rw [letters, List.filter_eq_nil_iff]
  intro c hc
  simp [h c hc]

theorem width_linesOf (text : List Byte) :
  ∀ line ∈ linesOf text, line.length ≤ helpWidth
  := by
  fun_induction linesOf text with
  | case1 text h =>
    intro line hline
    rwa [List.mem_singleton.mp hline]
  | case2 text h hfull =>
    intro line hline
    rw [List.mem_singleton.mp hline]
    apply List.length_take_le
  | case3 text h hend ih =>
    rw [List.forall_mem_cons]
    exact ⟨(List.length_take_le _ _).trans (lineEnd_le text), ih⟩

/-- The lines have no other characters than the text. -/
theorem linesOf_sublist (text : List Byte) :
  List.Sublist (linesOf text).flatten text
  := by
  fun_induction linesOf text with
  | case1 text h => rw [List.flatten_singleton]
  | case2 text h hfull =>
    rw [List.flatten_singleton]
    apply List.take_sublist
  | case3 text h hend ih =>
    obtain ⟨x, -, htext⟩ := eq_append_nextStart (Nat.lt_of_not_le h)
    conv_rhs => rw [htext]
    rw [List.flatten_cons]
    apply List.Sublist.append_left
    apply List.Sublist.cons
    exact ih.trans (List.sublist_append_right _ _)

theorem kept_of_le (h : text.length ≤ helpWidth) :
  Kept text
  := by
  rw [Kept, linesOf, if_pos h, List.flatten_singleton]

/-- After a full line, the text is over. -/
theorem kept_iff_of_full (h : helpWidth < text.length) (hfull : lineEnd text = helpWidth) :
  Kept text ↔ ∀ c ∈ text.drop helpWidth, c = blank
  := by
  rw [Kept, linesOf, if_neg (Nat.not_le_of_lt h), if_pos hfull, List.flatten_singleton]
  nth_rewrite 2 [← List.take_append_drop helpWidth text]
  rw [letters_append, List.self_eq_append_right, letters, List.filter_eq_nil_iff]
  simp

/-- After another line, the character that is overwritten is missing unless it is a blank. -/
theorem kept_iff_of_next (h : helpWidth < text.length) (hend : lineEnd text < helpWidth) :
  Kept text ↔ text[lineEnd text]? = some blank ∧ Kept (text.drop (nextStart text))
  := by
  obtain ⟨x, hx, htext⟩ := eq_append_nextStart h
  have hletters : letters text = letters (text.take (lineEnd text))
      ++ (letters [x] ++ letters (text.drop (nextStart text))) := by
    conv_lhs => rw [htext]
    rw [letters_append, ← List.singleton_append, letters_append, letters_append,
      letters_of_blanks fun c => eq_blank_of_mem_lineBlanks, List.nil_append]
  have hle : (letters (linesOf (text.drop (nextStart text))).flatten).length
      ≤ (letters (text.drop (nextStart text))).length :=
    ((linesOf_sublist _).filter _).length_le
  rw [Kept, linesOf, if_neg (Nat.not_le_of_lt h), if_neg hend.ne, List.flatten_cons,
    letters_append, hletters, List.append_cancel_left_eq, hx, Option.some_inj]
  by_cases hblank : x = blank
  · have hnil : letters [x] = [] := letters_of_blanks (by simpa using hblank)
    rw [hnil, List.nil_append]
    exact ⟨fun hkept => ⟨hblank, hkept⟩, fun hkept => hkept.2⟩
  · constructor
    · intro hkept
      have hlen := congrArg List.length hkept
      have hone : letters [x] = [x] := by simp [letters, hblank]
      rw [hone, List.length_append, List.length_singleton] at hlen
      omega
    · exact fun hkept => absurd hkept.1 hblank

/-- The words of a text that is broken at a blank. -/
theorem words_of_next (h : helpWidth < text.length) (hblank : text[lineEnd text]? = some blank) :
  words (· = blank) text = words (· = blank) (text.take (lineEnd text))
    ++ words (· = blank) (text.drop (nextStart text))
  := by
  obtain ⟨x, hx, htext⟩ := eq_append_nextStart h
  obtain rfl := Option.some.inj (hx.symm.trans hblank)
  have hcut (before after : List Byte) : words (· = blank) (before ++ blank :: after)
      = words (· = blank) before ++ words (· = blank) after :=
    words_append_cons before after (decide_eq_true rfl)
  conv_lhs => rw [htext]
  rw [hcut, words_append_of_forall]
  intro c hc
  exact decide_eq_true (eq_blank_of_mem_lineBlanks hc)

/-- A line that is broken nowhere begins with a blank, unless there is a word that is too long. -/
theorem getElem?_lineEnd_of_words (h : helpWidth < text.length)
    (hwords : ∀ w ∈ words (· = blank) text, w.length ≤ helpWidth) :
  text[lineEnd text]? = some blank
  := by
  rcases Nat.eq_zero_or_pos (lineEnd text) with hzero | hpos
  · rw [hzero]
    by_contra hhead
    obtain ⟨w, hw, hlong⟩ : ∃ w ∈ words (· = blank) text, helpWidth + 1 ≤ w.length :=
      exists_long_word (Nat.succ_pos helpWidth) h
        fun c hc => decide_eq_false (ne_blank_of_lineEnd hzero hhead c hc)
    exact absurd (hwords w hw) (Nat.not_le_of_lt hlong)
  · exact getElem?_lineEnd hpos

theorem words_of_full (h : helpWidth < text.length) (hfull : lineEnd text = helpWidth)
    (hblanks : ∀ c ∈ text.drop helpWidth, c = blank) :
  words (· = blank) text = words (· = blank) (text.take helpWidth)
  := by
  have hx : text[lineEnd text]? = some blank := getElem?_lineEnd (by rw [hfull]; decide)
  have hnext : words (· = blank) (text.drop (nextStart text)) = [] := by
    apply words_of_forall
    intro c hc
    apply decide_eq_true
    have hsuffix := List.drop_suffix_drop_left text (show helpWidth ≤ nextStart text by
      rw [nextStart]
      omega)
    exact hblanks c (hsuffix.mem hc)
  rw [words_of_next h hx, hnext, List.append_nil, hfull]

/-- If the lines have all the characters, they have all the words. -/
theorem words_linesOf (h : Kept text) :
  (linesOf text).flatMap (words (· = blank)) = words (· = blank) text
  := by
  fun_induction linesOf text with
  | case1 text hle => rw [List.flatMap_singleton]
  | case2 text hlong hfull =>
    have hlt := Nat.lt_of_not_le hlong
    rw [List.flatMap_singleton,
      words_of_full hlt hfull ((kept_iff_of_full hlt hfull).mp h)]
  | case3 text hlong hend ih =>
    have hlt := Nat.lt_of_not_le hlong
    obtain ⟨hblank, hkept⟩ :=
      (kept_iff_of_next hlt (Nat.lt_of_le_of_ne (lineEnd_le text) hend)).mp h
    rw [List.flatMap_cons, ih hkept, words_of_next hlt hblank]

theorem nextLine_of_le (h : text.length ≤ helpWidth) :
  nextLine text = none
  := by
  rw [nextLine, if_neg]
  omega

theorem nextLine_of_full (h : lineEnd text = helpWidth) :
  nextLine text = none
  := by
  rw [nextLine, if_neg]
  omega

theorem nextLine_of_next (h : helpWidth < text.length) (hend : lineEnd text < helpWidth) :
  nextLine text = some (text.drop (nextStart text))
  := if_pos ⟨h, hend⟩

/-- The lines have all the characters if no word is too long and no line but the last is full. -/
theorem kept_iff (text : List Byte) :
  Kept text ↔ (∀ w ∈ words (· = blank) text, w.length ≤ helpWidth)
    ∧ ∀ rest, Reaches nextLine text rest → EndsFull rest
  := by
  fun_induction linesOf text with
  | case1 text hle =>
    have hwords : ∀ w ∈ words (· = blank) text, w.length ≤ helpWidth :=
      fun w hw => (length_le_of_mem_words hw).trans hle
    rw [Walk.forall_reaches_iff, nextLine_of_le hle]
    refine iff_of_true (kept_of_le hle) ⟨hwords, ?_, ?_⟩
    · exact fun hlt => absurd hle (Nat.not_le_of_lt hlt)
    · rintro _ ⟨⟩
  | case2 text hlong hfull =>
    have hlt := Nat.lt_of_not_le hlong
    rw [kept_iff_of_full hlt hfull, Walk.forall_reaches_iff, nextLine_of_full hfull]
    constructor
    · intro hblanks
      refine ⟨?_, fun _ _ => hblanks, ?_⟩
      · rw [words_of_full hlt hfull hblanks]
        exact fun w hw => (length_le_of_mem_words hw).trans (List.length_take_le _ _)
      · rintro _ ⟨⟩
    · rintro ⟨-, hends, -⟩
      exact hends hlt hfull
  | case3 text hlong hend ih =>
    have hlt := Nat.lt_of_not_le hlong
    have hend := Nat.lt_of_le_of_ne (lineEnd_le text) hend
    rw [kept_iff_of_next hlt hend, ih, Walk.forall_reaches_iff (s := text),
      nextLine_of_next hlt hend]
    constructor
    · rintro ⟨hblank, hwords, hrest⟩
      refine ⟨?_, fun _ hfull => absurd hfull hend.ne, ?_⟩
      · rw [words_of_next hlt hblank, List.forall_mem_append]
        refine ⟨?_, hwords⟩
        intro w hw
        exact (length_le_of_mem_words hw).trans ((List.length_take_le _ _).trans hend.le)
      · rintro _ ⟨⟩
        exact hrest
    · rintro ⟨hwords, -, hrest⟩
      have hblank := getElem?_lineEnd_of_words hlt hwords
      rw [words_of_next hlt hblank, List.forall_mem_append] at hwords
      exact ⟨hblank, hwords.2, hrest _ rfl⟩

/-! ### The buffer -/

variable {m buffer₀ : ℕ → Byte} {s k : ℕ} {h : Help}

theorem byte_of_holds (hm : Holds m s (rest ++ [0])) (hk : k ≤ rest.length) :
  m (s + k) = rest[k]?.getD 0
  := by
  rw [holds_iff_getElem] at hm
  rw [hm k (by rw [List.length_append, List.length_singleton]; omega)]
  rcases Nat.lt_or_eq_of_le hk with hlt | rfl
  · rw [List.getElem_append_left hlt, List.getElem?_eq_getElem hlt, Option.getD_some]
  · rw [List.getElem_concat_length rfl, List.getElem?_eq_none le_rfl, Option.getD_none]

namespace Help

theorem skipBlanks_eq (hm : Holds m s rest) :
  skipBlanks m (s + rest.length) s = s + (rest.takeWhile (· = blank)).length
  := by
  induction rest generalizing s with
  | nil =>
    rw [skipBlanks, if_neg (by simp)]
    rfl
  | cons c rest ih =>
    obtain ⟨hc, hrest⟩ := holds_cons.mp hm
    rw [skipBlanks, List.takeWhile_cons, List.length_cons, hc]
    by_cases hblank : c = blank
    · rw [if_pos ⟨by omega, hblank⟩, if_pos (decide_eq_true hblank), List.length_cons,
        show s + (rest.length + 1) = s + 1 + rest.length by omega, ih hrest]
      omega
    · rw [if_neg fun hand => hblank hand.2, if_neg (by simpa using hblank)]
      rfl

/-- The variables while the line is being scanned that begins with the text that is left: `k`
characters of it have been passed. -/
structure AtLine (buffer₀ : ℕ → Byte) (text rest : List Byte) (s k : ℕ) (h : Help) : Prop where
  holds : Holds h.buffer s (rest ++ [0])
  behind : ∀ a, text.length < a → h.buffer a = buffer₀ a
  total : s + rest.length = text.length
  start : h.pStart = s
  pText : h.pText = s + k
  le : k ≤ rest.length
  width : k ≤ helpWidth
  pBreak : h.pBreak = s + Nat.findGreatest (WordEnds rest) (k - 1)
  inWord : rest[k]? = some blank → 0 < k → (h.inWord = true ↔ rest[k - 1]? ≠ some blank)
  returned : h.returned = false

theorem AtLine.step_eq (hat : AtLine buffer₀ text rest s k h) :
  step h = some h.round
  := by
  rw [step, hat.returned]
  rfl

theorem AtLine.byte (hat : AtLine buffer₀ text rest s k h) :
  h.buffer h.pText = rest[k]?.getD 0
  := by
  rw [hat.pText]
  exact byte_of_holds hat.holds hat.le

theorem AtLine.byte_eq_blank_iff (hat : AtLine buffer₀ text rest s k h) :
  h.buffer h.pText = blank ↔ rest[k]? = some blank
  := by
  rw [hat.byte]
  cases rest[k]? with
  | none => decide
  | some c => rw [Option.getD_some, Option.some_inj]

theorem AtLine.byte_eq_zero_iff (hat : AtLine buffer₀ text rest s k h) (hzero : 0 ∉ rest) :
  h.buffer h.pText = 0 ↔ k = rest.length
  := by
  rw [hat.byte]
  rcases Nat.lt_or_eq_of_le hat.le with hlt | rfl
  · rw [List.getElem?_eq_getElem hlt, Option.getD_some]
    refine iff_of_false ?_ hlt.ne
    exact fun heq => hzero (heq ▸ List.getElem_mem hlt)
  · rw [List.getElem?_eq_none le_rfl]
    exact iff_of_true rfl rfl

theorem findGreatest_wordEnds_of_not (hk : ¬ WordEnds rest k) :
  Nat.findGreatest (WordEnds rest) k = Nat.findGreatest (WordEnds rest) (k - 1)
  := by
  cases k with
  | zero => rfl
  | succ k => exact Nat.findGreatest_of_not hk

/-- After the first part of the loop, `p_break` is where the last word ends. -/
theorem scan_eq (hat : AtLine buffer₀ text rest s k h) :
  h.scan = { h with
    inWord := decide (rest[k]? ≠ some blank)
    pBreak := s + Nat.findGreatest (WordEnds rest) k }
  := by
  by_cases hk : rest[k]? = some blank
  · have hbyte := hat.byte_eq_blank_iff.mpr hk
    have hword := hat.inWord hk
    rw [scan, decide_eq_false (not_not_intro hk)]
    cases hin : h.inWord with
    | true =>
      rw [if_pos ⟨hbyte, rfl⟩, hat.pText]
      congr 2
      rcases Nat.eq_zero_or_pos k with rfl | hpos
      · rfl
      · rw [Nat.findGreatest_eq ⟨hk, (hword hpos).mp hin⟩]
    | false =>
      rw [if_neg (by simp), if_neg (not_not_intro hbyte), findGreatest_wordEnds_of_not,
        ← hat.pBreak, ← hin]
      rintro ⟨-, hbefore⟩
      rcases Nat.eq_zero_or_pos k with rfl | hpos
      · exact hbefore hk
      · rw [(hword hpos).mpr hbefore] at hin
        cases hin
  · have hbyte := mt hat.byte_eq_blank_iff.mp hk
    rw [scan, decide_eq_true hk, if_neg fun hand => hbyte hand.1, if_pos hbyte,
      findGreatest_wordEnds_of_not fun hends => hk hends.1, ← hat.pBreak]

/-- A character is passed. -/
theorem round_of_lt (hat : AtLine buffer₀ text rest s k h) (hzero : 0 ∉ rest)
    (hlen : k < rest.length) (hwidth : k < helpWidth) :
  AtLine buffer₀ text rest s (k + 1) h.round ∧ h.round.drawn = h.drawn ∧ h.round.line = h.line
  := by
  have hgo : ¬ (h.pText - h.pStart ≥ helpWidth ∨ h.buffer h.pText = 0) := by
    rw [hat.byte_eq_zero_iff hzero, hat.pText, hat.start]
    omega
  have hround : h.round = { h with
      inWord := decide (rest[k]? ≠ some blank)
      pBreak := s + Nat.findGreatest (WordEnds rest) k
      pText := h.pText + 1 } := by
    rw [round, scan_eq hat]
    exact if_neg hgo
  rw [hround]
  refine ⟨?_, rfl, rfl⟩
  exact {
    hat with
    pText := congrArg (· + 1) hat.pText
    le := hlen
    width := hwidth
    pBreak := rfl
    inWord := fun _ _ => decide_eq_true_iff }

/-- The whole line is scanned. -/
theorem reaches_end (hat : AtLine buffer₀ text rest s k h) (hzero : 0 ∉ rest) :
  ∃ h', Reaches step h h' ∧ AtLine buffer₀ text rest s (min rest.length helpWidth) h'
    ∧ h'.drawn = h.drawn ∧ h'.line = h.line
  := by
  induction hn : min rest.length helpWidth - k generalizing k h with
  | zero =>
    have hk : min rest.length helpWidth = k := by
      have hle := hat.le
      have hwidth := hat.width
      omega
    rw [hk]
    exact ⟨h, Relation.ReflTransGen.refl, hat, rfl, rfl⟩
  | succ n ih =>
    obtain ⟨hnext, hdrawn, hline⟩ := round_of_lt hat hzero (by omega) (by omega)
    obtain ⟨h', hreaches, hat', hdrawn', hline'⟩ := ih hnext (by omega)
    exact ⟨h', Relation.ReflTransGen.head hat.step_eq hreaches, hat', hdrawn'.trans hdrawn,
      hline'.trans hline⟩

/-- The end of the text is drawn. -/
theorem round_of_end (hat : AtLine buffer₀ text rest s rest.length h) (hzero : 0 ∉ rest) :
  h.round.returned = true ∧ h.round.drawn = h.drawn ++ [(rest, h.line)]
    ∧ h.round.buffer = h.buffer
  := by
  have hbyte := (hat.byte_eq_zero_iff hzero).mpr rfl
  have htext : (read h.buffer h.pStart (h.pText + 1 - h.pStart)).takeWhile (· ≠ 0) = rest := by
    rw [hat.start, hat.pText]
    apply hat.holds.takeWhile_read
    · intro c hc
      exact decide_eq_true fun heq => hzero (heq ▸ hc)
    · exact decide_eq_false (not_not_intro rfl)
    · omega
  have hupdate : Function.update h.buffer h.pText 0 = h.buffer := by
    rw [← hbyte, Function.update_eq_self]
  rw [round, scan_eq hat]
  simp only [hbyte, or_true, if_true, flush, drawText, hupdate, htext, and_self]

/-- The buffer after a NUL has been written behind the line. -/
def broken (h : Help) (s : ℕ) (rest : List Byte) : ℕ → Byte :=
  Function.update h.buffer (s + lineEnd rest) 0

theorem broken_of_ne {a : ℕ} (ha : a ≠ s + lineEnd rest) :
  h.broken s rest a = h.buffer a
  := Function.update_of_ne ha _ _

theorem takeWhile_broken (hat : AtLine buffer₀ text rest s helpWidth h) (hzero : 0 ∉ rest)
    (hlong : helpWidth < rest.length) :
  (read (h.broken s rest) s (s + lineEnd rest + 1 - s)).takeWhile (· ≠ 0)
    = rest.take (lineEnd rest)
  := by
  have hlen : (rest.take (lineEnd rest)).length = lineEnd rest :=
    List.length_take_of_le ((lineEnd_le rest).trans hlong.le)
  have hline : Holds (h.broken s rest) s (rest.take (lineEnd rest) ++ [0]) := by
    have hholds := (holds_append.mp hat.holds).1
    rw [← List.take_append_drop (lineEnd rest) rest] at hholds
    refine holds_append.mpr ⟨(holds_append.mp hholds).1.update 0 (Or.inl ?_), ?_⟩
    · rw [hlen]
    · rw [hlen]
      exact ⟨Function.update_self .., trivial⟩
  apply hline.takeWhile_read
  · intro c hc
    exact decide_eq_true fun heq => hzero (heq ▸ List.mem_of_mem_take hc)
  · exact decide_eq_false (not_not_intro rfl)
  · omega

theorem holds_broken (hat : AtLine buffer₀ text rest s helpWidth h) {c : ℕ} (hc : lineEnd rest < c)
    (hle : c ≤ rest.length) :
  Holds (h.broken s rest) (s + c) (rest.drop c ++ [0])
  := by
  have hdrop := hat.holds.drop c
  rw [List.drop_append_of_le_length hle] at hdrop
  exact hdrop.update 0 (Or.inr (by omega))

theorem skipBlanks_broken (hat : AtLine buffer₀ text rest s helpWidth h)
    (hlong : helpWidth < rest.length) (hend : lineEnd rest < helpWidth) :
  skipBlanks (h.broken s rest) (s + helpWidth) (s + lineEnd rest + 1) = s + nextStart rest
  := by
  have hholds := (holds_append.mp (holds_broken hat (Nat.lt_succ_self _) (by omega))).1
  have hsplit : rest.drop (lineEnd rest + 1)
      = (rest.take helpWidth).drop (lineEnd rest + 1) ++ rest.drop helpWidth := by
    rw [← List.drop_append_of_le_length, List.take_append_drop]
    rw [List.length_take_of_le hlong.le]
    exact hend
  rw [hsplit] at hholds
  have hskip := skipBlanks_eq (holds_append.mp hholds).1
  rw [List.length_drop, List.length_take_of_le hlong.le,
    show s + (lineEnd rest + 1) + (helpWidth - (lineEnd rest + 1)) = s + helpWidth by omega]
    at hskip
  rw [Nat.add_assoc, hskip, nextStart, lineBlanks]
  omega

/-- The round that ends a line. -/
theorem round_of_long (hat : AtLine buffer₀ text rest s helpWidth h) (hzero : 0 ∉ rest)
    (hlong : helpWidth < rest.length) :
  h.round =
    let h := { h with
      buffer := h.broken s rest
      inWord := decide (rest[helpWidth]? ≠ some blank)
      pBreak := s + lineEnd rest
      drawn := h.drawn ++ [(rest.take (lineEnd rest), h.line)]
      line := h.line + 1 }
    if h.buffer (s + helpWidth) = 0 then { h with returned := true }
    else
      let pBreak := skipBlanks h.buffer (s + helpWidth) (s + lineEnd rest + 1)
      { h with pBreak := pBreak, pStart := pBreak, returned := decide (h.buffer pBreak = 0) }
  := by
  have hgo : h.pText - h.pStart ≥ helpWidth ∨ h.buffer h.pText = 0 := by
    rw [hat.pText, hat.start]
    omega
  have hbyte : h.buffer (s + helpWidth) ≠ 0 := by
    rw [← hat.pText]
    exact mt (hat.byte_eq_zero_iff hzero).mp hlong.ne
  have hround : h.round = flush { h with
      inWord := decide (rest[helpWidth]? ≠ some blank)
      pBreak := s + lineEnd rest } := by
    rw [round, scan_eq hat]
    exact if_pos hgo
  rw [hround, flush]
  simp only [hat.pText, hat.start, if_neg hbyte, drawText]
  rw [← broken, takeWhile_broken hat hzero hlong]

/-- A full line is drawn, and it is the last one. -/
theorem round_of_full (hat : AtLine buffer₀ text rest s helpWidth h) (hzero : 0 ∉ rest)
    (hlong : helpWidth < rest.length) (hfull : lineEnd rest = helpWidth) :
  h.round.returned = true ∧ h.round.drawn = h.drawn ++ [(rest.take helpWidth, h.line)]
    ∧ h.round.buffer = h.broken s rest
  := by
  have hbyte : h.broken s rest (s + helpWidth) = 0 := by
    rw [broken, hfull, Function.update_self]
  rw [round_of_long hat hzero hlong]
  simp only [if_pos hbyte, hfull, and_self]

theorem wordEnds_drop {c i : ℕ} (hi : 0 < i) :
  WordEnds (rest.drop c) i ↔ WordEnds rest (c + i)
  := by
  rw [WordEnds, WordEnds, List.getElem?_drop, List.getElem?_drop, ← Nat.add_sub_assoc hi]

/-- Another line is drawn, and the next one begins behind the blanks. -/
theorem round_of_next (hat : AtLine buffer₀ text rest s helpWidth h) (hzero : 0 ∉ rest)
    (hlong : helpWidth < rest.length) (hend : lineEnd rest < helpWidth) :
  AtLine buffer₀ text (rest.drop (nextStart rest)) (s + nextStart rest)
      (helpWidth - nextStart rest) h.round
    ∧ h.round.drawn = h.drawn ++ [(rest.take (lineEnd rest), h.line)]
    ∧ h.round.line = h.line + 1
  := by
  have hle := nextStart_le hend
  have hlt : lineEnd rest < nextStart rest := by
    rw [nextStart]
    omega
  have hbyte : ∀ i, lineEnd rest < i → i < rest.length → h.broken s rest (s + i) ≠ 0 := by
    intro i hi hlen heq
    rw [broken_of_ne (by omega), byte_of_holds hat.holds hlen.le, List.getElem?_eq_getElem hlen]
      at heq
    exact hzero (heq ▸ List.getElem_mem hlen)
  have hround : h.round = { h with
      buffer := h.broken s rest
      inWord := decide (rest[helpWidth]? ≠ some blank)
      pBreak := s + nextStart rest
      pStart := s + nextStart rest
      drawn := h.drawn ++ [(rest.take (lineEnd rest), h.line)]
      line := h.line + 1
      returned := false } := by
    rw [round_of_long hat hzero hlong]
    simp only [if_neg (hbyte _ hend hlong), skipBlanks_broken hat hlong hend,
      hbyte _ hlt (hle.trans_lt hlong), decide_false]
  have hnone : ∀ i, lineEnd rest < i → i ≤ helpWidth → ¬ WordEnds rest i :=
    fun i => (Nat.findGreatest_eq_iff.mp (Eq.refl (lineEnd rest))).2.2 (n := i)
  rw [hround]
  refine ⟨?_, rfl, rfl⟩
  exact {
    holds := holds_broken hat hlt (hle.trans hlong.le)
    behind := by
      intro a ha
      have htotal := hat.total
      exact (broken_of_ne (by omega)).trans (hat.behind a ha)
    total := by
      have htotal := hat.total
      rw [List.length_drop]
      omega
    start := rfl
    pText := by
      have hpText := hat.pText
      simp only
      omega
    le := by
      rw [List.length_drop]
      omega
    width := Nat.sub_le _ _
    pBreak := by
      have hfirst : Nat.findGreatest (WordEnds (rest.drop (nextStart rest)))
          (helpWidth - nextStart rest - 1) = 0 := by
        rw [Nat.findGreatest_eq_zero_iff]
        intro i hi hi' hends
        rw [wordEnds_drop hi] at hends
        exact hnone _ (by omega) (by omega) hends
      rw [hfirst]
      rfl
    inWord := by
      intro hblank hpos
      -- this blank has been seen before: it follows another one
      rw [List.getElem?_drop, Nat.add_sub_cancel' hle] at hblank
      rw [List.getElem?_drop, ← Nat.add_sub_assoc hpos, Nat.add_sub_cancel' hle]
      have hbefore : rest[helpWidth - 1]? = some blank := by
        by_contra hne
        exact hnone helpWidth hend le_rfl ⟨hblank, hne⟩
      simp [hblank, hbefore]
    returned := rfl }

/-! ### The whole text -/

theorem atLine_start (buffer₀ : ℕ → Byte) (text : List Byte) :
  AtLine buffer₀ text text 0 0 (start buffer₀ (some text))
  := {
    holds := holds_store _ _ _
    behind := by
      intro a ha
      apply store_of_le
      rw [List.length_append, List.length_singleton]
      omega
    total := Nat.zero_add _
    start := rfl
    pText := rfl
    le := Nat.zero_le _
    width := Nat.zero_le _
    pBreak := rfl
    inWord := fun _ hpos => absurd hpos (Nat.lt_irrefl 0)
    returned := rfl }

/-- What the loop has done in the end with the text that is left. -/
structure Done (buffer₀ : ℕ → Byte) (text rest : List Byte) (h h' : Help) : Prop where
  returned : h'.returned = true
  drawn : h'.drawn = h.drawn ++ (linesOf rest).zipIdx h.line
  behind : ∀ a, text.length < a → h'.buffer a = buffer₀ a
  nul : h'.buffer text.length = 0

theorem reaches_done (hat : AtLine buffer₀ text rest s k h) (hzero : 0 ∉ rest) :
  ∃ h', Reaches step h h' ∧ Done buffer₀ text rest h h'
  := by
  induction hn : rest.length using Nat.strong_induction_on generalizing rest s k h with
  | _ n ih =>
    obtain ⟨h₁, hreaches, hat₁, hdrawn₁, hline₁⟩ := reaches_end hat hzero
    have hround : Reaches step h h₁.round := Relation.ReflTransGen.tail hreaches hat₁.step_eq
    have hnul : h₁.buffer text.length = 0 := by
      rw [← hat₁.total, byte_of_holds hat₁.holds le_rfl, List.getElem?_eq_none le_rfl]
      rfl
    rcases Nat.lt_or_ge helpWidth rest.length with hlong | hle
    · rw [Nat.min_eq_right hlong.le] at hat₁
      rcases Nat.lt_or_eq_of_le (lineEnd_le rest) with hend | hfull
      · obtain ⟨hat₂, hdrawn₂, hline₂⟩ := round_of_next hat₁ hzero hlong hend
        have hshort : (rest.drop (nextStart rest)).length < n := by
          rw [List.length_drop, nextStart]
          omega
        obtain ⟨h', hreaches', hdone⟩ :=
          ih _ hshort hat₂ (fun hmem => hzero (List.mem_of_mem_drop hmem)) rfl
        refine ⟨h', hround.trans hreaches', hdone.returned, ?_, hdone.behind, hdone.nul⟩
        rw [hdone.drawn, hdrawn₂, hline₂, hdrawn₁, hline₁, linesOf.eq_def rest,
          if_neg (Nat.not_le_of_lt hlong), if_neg hend.ne, List.zipIdx_cons, List.append_assoc]
        rfl
      · obtain ⟨hreturned, hdrawn₂, hbuffer⟩ := round_of_full hat₁ hzero hlong hfull
        have htotal := hat₁.total
        refine ⟨h₁.round, hround, hreturned, ?_, ?_, ?_⟩
        · rw [hdrawn₂, hdrawn₁, hline₁, linesOf, if_neg (Nat.not_le_of_lt hlong), if_pos hfull]
          rfl
        · intro a ha
          rw [hbuffer, broken_of_ne (by omega), hat₁.behind a ha]
        · rw [hbuffer, broken_of_ne (by omega), hnul]
    · rw [Nat.min_eq_left hle] at hat₁
      obtain ⟨hreturned, hdrawn₂, hbuffer⟩ := round_of_end hat₁ hzero
      refine ⟨h₁.round, hround, hreturned, ?_, ?_, ?_⟩
      · rw [hdrawn₂, hdrawn₁, hline₁, linesOf, if_pos hle]
        rfl
      · rw [hbuffer]
        exact hat₁.behind
      · rw [hbuffer, hnul]

end Help

/-- What `menu_draw_help` does with a text. -/
theorem exists_run_done (hzero : 0 ∉ text) (buffer₀ : ℕ → Byte) :
  ∃ n h, Walk.run Help.step n (Help.start buffer₀ (some text)) = some h
    ∧ Help.Done buffer₀ text text (Help.start buffer₀ (some text)) h
  := by
  obtain ⟨h, hreaches, hdone⟩ := Help.reaches_done (Help.atLine_start buffer₀ text) hzero
  have hnone : Help.step h = none := by
    rw [Help.step, hdone.returned]
    rfl
  obtain ⟨n, hn⟩ := Walk.exists_run hreaches hnone
  exact ⟨n, h, hn, hdone⟩

theorem draws_iff_of_done (hdone : Help.Done buffer₀ text text (Help.start buffer₀ (some text)) h) :
  Draws buffer₀ text h ↔ Kept text ∧ ∀ a, helpSize ≤ a → h.buffer a = buffer₀ a
  := by
  have hlines : h.drawn.map Prod.fst = linesOf text := by
    rw [hdone.drawn]
    exact List.zipIdx_map_fst 20 (linesOf text)
  have hrows : h.drawn.map Prod.snd = List.range' 20 h.drawn.length := by
    have hlen := congrArg List.length hlines
    rw [List.length_map] at hlen
    rw [hlen, hdone.drawn]
    exact List.zipIdx_map_snd 20 (linesOf text)
  constructor
  · intro hdraws
    have hchars := hdraws.chars
    rw [hlines] at hchars
    exact ⟨hchars, hdraws.behind⟩
  · rintro ⟨hkept, hbehind⟩
    constructor
    · exact hrows
    · rw [hlines]
      exact width_linesOf text
    · rw [hlines]
      exact hkept
    · intro _
      rw [hlines]
      exact words_linesOf hkept
    · exact hbehind

/-- A text without NUL is drawn if and only if there is room for it in the buffer, none of its words
is too long, and none of its lines is full but the last one. -/
theorem menuDrawHelp_iff (hzero : 0 ∉ text) :
  (∀ buffer₀, ∃ n h, Walk.run Help.step n (Help.start buffer₀ (some text)) = some h
      ∧ Draws buffer₀ text h)
    ↔ text.length < helpSize ∧ (∀ w ∈ words (· = blank) text, w.length ≤ helpWidth)
      ∧ ∀ rest, Reaches nextLine text rest → EndsFull rest
  := by
  rw [← kept_iff]
  constructor
  · intro hall
    -- behind the buffer, there is no NUL before
    obtain ⟨n, h, hrun, hdraws⟩ := hall fun _ => 1
    obtain ⟨n', h', hrun', hdone⟩ := exists_run_done hzero fun _ => 1
    obtain rfl := Walk.run_unique hrun hrun'
    obtain ⟨hkept, hbehind⟩ := (draws_iff_of_done hdone).mp hdraws
    refine ⟨?_, hkept⟩
    by_contra hlong
    have hnul := hbehind text.length (Nat.le_of_not_lt hlong)
    rw [hdone.nul] at hnul
    have hne : (0 : Byte) ≠ 1 := by decide
    exact hne hnul
  · rintro ⟨hlen, hkept⟩ buffer₀
    obtain ⟨n, h, hrun, hdone⟩ := exists_run_done hzero buffer₀
    refine ⟨n, h, hrun, (draws_iff_of_done hdone).mpr ⟨hkept, ?_⟩⟩
    exact fun a ha => hdone.behind a (hlen.trans_le ha)

/-- Two words that take a line each. -/
theorem menuDrawHelp_iff_two :
  0 ∉ List.replicate 40 97 ++ blank :: List.replicate 40 98
    ∧ ∀ buffer₀, ∃ n h, Walk.run Help.step n (Help.start buffer₀
        (some (List.replicate 40 97 ++ blank :: List.replicate 40 98))) = some h
      ∧ Draws buffer₀ (List.replicate 40 97 ++ blank :: List.replicate 40 98) h
  := by
  refine ⟨by decide, (menuDrawHelp_iff (by decide)).mpr ?_⟩
  refine ⟨by decide, by decide, Walk.forall_reaches_iff.mpr ⟨?_, ?_⟩⟩
  · exact fun _ hfull => absurd hfull (by decide)
  · have hnext : nextLine (List.replicate 40 97 ++ blank :: List.replicate 40 98)
        = some (List.replicate 40 98) := by decide
    rw [hnext]
    rintro _ ⟨⟩
    rw [Walk.forall_reaches_iff, nextLine_of_le (by decide)]
    refine ⟨fun hlong => absurd hlong (by decide), ?_⟩
    rintro _ ⟨⟩

/-- A word takes a whole line, and the text goes on. -/
theorem not_draws_full :
  ¬ ∀ text : List Byte, 0 ∉ text → ∀ buffer₀, ∃ n h,
    Walk.run Help.step n (Help.start buffer₀ (some text)) = some h ∧ Draws buffer₀ text h
  := by
  intro hall
  have hzero : 0 ∉ List.replicate 72 (97 : Byte) ++ [blank, 98] := by decide
  obtain ⟨n, h, hrun, hdraws⟩ := hall _ hzero fun _ => 0
  obtain ⟨n', h', hrun', hdone⟩ := exists_run_done hzero fun _ => 0
  obtain rfl := Walk.run_unique hrun hrun'
  have hkept := ((draws_iff_of_done hdone).mp hdraws).1
  rw [kept_iff_of_full (by decide) (by decide)] at hkept
  have hlast := hkept 98 (by decide)
  exact absurd hlast (by decide)

end Menu
