import Mathlib.Data.List.TakeWhile
import UBoot.Lib.Memory

/-!
# Splitting a command into its words

`parse_line` of `common/main.c` enters the words of a line into the array `argv` and puts a
NUL behind each of them.  The array has one element more than there may be words, for the
final null pointer; elements that are not written keep what they were.
-/

namespace Cli

/-- The string a pointer points to ends at the first NUL. -/
def cstr (buf : List Byte) : List Byte := buf.takeWhile (· ≠ 0)

/-- A blank or a tab. -/
def isBlank (c : Byte) : Bool := c = 32 || c = 9

/-- The words of a line. -/
def words (line : List Byte) : List (List Byte) := (line.splitOnP isBlank).filter (· ≠ [])

/-- The array `argv`: pointers into the line, and null pointers. -/
abbrev Argv := ℕ → Option ℕ

/-- What `parse_line` returns, and what it leaves in the line and in `argv`. -/
structure Parsed where
  nargs : ℕ
  line : List Byte
  argv : Argv

/-- The string that an argument is. -/
def Parsed.arg (p : Parsed) (i : ℕ) : Option (List Byte) :=
  (p.argv i).map fun ptr => cstr (p.line.drop ptr)

/-- The loop of `parse_line`, with room for `room` more words; `front` is the part of the
line that it is through with. -/
def parseLoop : ℕ → List Byte → List Byte → ℕ → Argv → Parsed
  -- too many args: the last element of `argv` is not written
  | 0, front, line, nargs, argv => ⟨nargs, front ++ line, argv⟩
  | room + 1, front, line, nargs, argv =>
    let front := front ++ line.takeWhile isBlank
    let line := line.dropWhile isBlank
    if line = [] then ⟨nargs, front, Function.update argv nargs none⟩
    else
      let argv := Function.update argv nargs (some front.length)
      let front := front ++ line.takeWhile fun c => !isBlank c
      match line.dropWhile fun c => !isBlank c with
      | [] => ⟨nargs + 1, front, Function.update argv (nargs + 1) none⟩
      | _ :: line => parseLoop room (front ++ [0]) line (nargs + 1) argv

/-- `parse_line`, with `CONFIG_SYS_MAXARGS` words at most. -/
def parseLine (maxargs : ℕ) (line : List Byte) (argv : Argv) : Parsed :=
  parseLoop maxargs [] line 0 argv

/-! ### Words -/

theorem words_nil :
  words [] = []
  := by
  simp [words]

theorem words_blank_append {blanks : List Byte} (h : ∀ c ∈ blanks, isBlank c) (line : List Byte) :
  words (blanks ++ line) = words line
  := by
  induction blanks with
  | nil => rfl
  | cons c blanks ih =>
    have hc : isBlank c := h c (by simp)
    rw [← ih fun d hd => h d (by simp [hd])]
    simp [words, List.splitOnP_cons_eq_if_modifyHead, hc]

theorem words_word {w : List Byte} (h : ∀ c ∈ w, isBlank c = false) (hw : w ≠ []) :
  words w = [w]
  := by
  simp [words, List.splitOnP_eq_singleton h, hw]

theorem words_word_append {w : List Byte} {c : Byte} (h : ∀ c ∈ w, isBlank c = false) (hw : w ≠ [])
    (hc : isBlank c) (line : List Byte) :
  words (w ++ c :: line) = w :: words line
  := by
  simp [words, List.splitOnP_append_cons_of_forall_mem h c hc, hw]

/-- A line is blank, or it is one word behind blanks, or there is a blank behind its first
word. -/
theorem line_cases (line : List Byte) :
  (∀ c ∈ line, isBlank c)
    ∨ (∃ blanks w, line = blanks ++ w ∧ (∀ c ∈ blanks, isBlank c) ∧ w ≠ []
      ∧ ∀ c ∈ w, isBlank c = false)
    ∨ ∃ blanks w c rest, line = blanks ++ (w ++ c :: rest) ∧ (∀ c ∈ blanks, isBlank c) ∧ w ≠ []
      ∧ (∀ c ∈ w, isBlank c = false) ∧ isBlank c
  := by
  have hblanks : ∀ c ∈ line.takeWhile isBlank, isBlank c := fun c hc => List.mem_takeWhile_imp hc
  have hword : ∀ c ∈ (line.dropWhile isBlank).takeWhile fun c => !isBlank c, isBlank c = false := by
    intro c hc
    simpa using List.mem_takeWhile_imp hc
  have hline := List.takeWhile_append_dropWhile (p := isBlank) (l := line)
  have hrest := List.takeWhile_append_dropWhile (p := fun c => !isBlank c)
    (l := line.dropWhile isBlank)
  cases hdrop : line.dropWhile isBlank with
  | nil =>
    left
    rw [hdrop, List.append_nil] at hline
    rwa [hline] at hblanks
  | cons d rest' =>
    right
    have hd : isBlank d = false := by
      have := List.head_dropWhile_not isBlank (by rw [hdrop]; simp : line.dropWhile isBlank ≠ [])
      simpa [hdrop] using this
    have hne : ((line.dropWhile isBlank).takeWhile fun c => !isBlank c) ≠ [] := by
      rw [hdrop, List.takeWhile_cons_of_pos (by simp [hd])]
      simp
    cases hdrop' : (line.dropWhile isBlank).dropWhile fun c => !isBlank c with
    | nil =>
      left
      rw [hdrop', List.append_nil] at hrest
      refine ⟨_, _, ?_, hblanks, hne, hword⟩
      rw [hrest, hline]
    | cons c rest =>
      right
      have hc : isBlank c := by
        have := List.head_dropWhile_not (fun c => !isBlank c)
          (by rw [hdrop']; simp : (line.dropWhile isBlank).dropWhile (fun c => !isBlank c) ≠ [])
        simpa [hdrop'] using this
      refine ⟨_, _, c, rest, ?_, hblanks, hne, hword, hc⟩
      rw [← hdrop', hrest, hline]

/-- A line without words is blank. -/
theorem isBlank_of_words_eq_nil {line : List Byte} (h : words line = []) :
  ∀ c ∈ line, isBlank c
  := by
  rcases line_cases line with hblank | ⟨blanks, w, rfl, hb, hw, hword⟩
    | ⟨blanks, w, c, rest, rfl, hb, hw, hword, hc⟩
  · apply hblank
  · rw [words_blank_append hb, words_word hword hw] at h
    cases h
  · rw [words_blank_append hb, words_word_append hword hw hc] at h
    cases h

/-- The line has a blank behind its first `n` words. -/
def Overflows (n : ℕ) (line : List Byte) : Prop :=
  n < (words line).length ∨ (words line).length = n ∧ ∀ c ∈ line.getLast?, isBlank c

theorem overflows_zero (line : List Byte) :
  Overflows 0 line
  := by
  rcases Nat.eq_zero_or_pos (words line).length with h | h
  · right
    refine ⟨h, ?_⟩
    intro c hc
    apply isBlank_of_words_eq_nil (List.length_eq_zero_iff.mp h) c (List.mem_of_getLast? hc)
  · apply Or.inl h

theorem overflows_blank {line : List Byte} {n : ℕ} (h : ∀ c ∈ line, isBlank c) :
  ¬ Overflows (n + 1) line
  := by
  have hwords : words line = [] := by
    have := words_blank_append h []
    rwa [List.append_nil, words_nil] at this
  simp [Overflows, hwords]

theorem overflows_word {blanks w : List Byte} {n : ℕ} (hb : ∀ c ∈ blanks, isBlank c) (hw : w ≠ [])
    (h : ∀ c ∈ w, isBlank c = false) :
  ¬ Overflows (n + 1) (blanks ++ w)
  := by
  rw [Overflows, words_blank_append hb, words_word h hw]
  rintro (hlt | ⟨-, hlast⟩)
  · simp at hlt
  · have hmem : w.getLast hw ∈ (blanks ++ w).getLast? := by
      rw [List.getLast?_append_of_ne_nil _ hw, List.getLast?_eq_getLast_of_ne_nil hw]
      rfl
    have := hlast _ hmem
    rw [h _ (List.getLast_mem hw)] at this
    cases this

theorem overflows_word_append {blanks w rest : List Byte} {c : Byte} {n : ℕ}
    (hb : ∀ c ∈ blanks, isBlank c) (hw : w ≠ []) (h : ∀ c ∈ w, isBlank c = false) (hc : isBlank c) :
  Overflows (n + 1) (blanks ++ (w ++ c :: rest)) ↔ Overflows n rest
  := by
  have hlast : (∀ d ∈ (blanks ++ (w ++ c :: rest)).getLast?, isBlank d)
      ↔ ∀ d ∈ rest.getLast?, isBlank d := by
    rw [List.getLast?_append_of_ne_nil _ (by simp), List.getLast?_append_of_ne_nil _ (by simp)]
    cases rest with
    | nil => simpa using hc
    | cons d rest => rw [List.getLast?_cons_cons]
  rw [Overflows, Overflows, words_blank_append hb, words_word_append h hw hc, hlast,
    List.length_cons]
  simp

/-! ### What `parse_line` does -/

/-- What a call of the loop with room for `room` words does to the line and to `argv`. -/
structure ParseSpec (room : ℕ) (front line : List Byte) (nargs : ℕ) (argv : Argv) (r : Parsed) :
    Prop where
  front : ∃ tail, r.line = front ++ tail
  argv_lt : ∀ i < nargs, r.argv i = argv i
  arg : ∀ j (h : j < (words line).length), j < room → r.arg (nargs + j) = some (words line)[j]
  full : Overflows room line → r.nargs = nargs + room ∧ r.argv (nargs + room) = argv (nargs + room)
  fits : ¬ Overflows room line
    → r.nargs = nargs + (words line).length ∧ r.argv (nargs + (words line).length) = none

section

variable {room nargs : ℕ} {front line blanks w : List Byte} {argv : Argv} {c : Byte}

theorem takeWhile_isBlank (hb : ∀ c ∈ blanks, isBlank c) (hw : w ≠ [])
    (h : ∀ c ∈ w, isBlank c = false) (rest : List Byte) :
  (blanks ++ (w ++ rest)).takeWhile isBlank = blanks
    ∧ (blanks ++ (w ++ rest)).dropWhile isBlank = w ++ rest
  := by
  obtain ⟨d, w, rfl⟩ := List.exists_cons_of_ne_nil hw
  have hd : isBlank d = false := h d (by simp)
  rw [List.takeWhile_append_of_pos hb, List.dropWhile_append_of_pos hb]
  simp [hd]

/-- The loop at a blank line. -/
theorem parseLoop_blank (h : ∀ c ∈ line, isBlank c) :
  parseLoop (room + 1) front line nargs argv
    = ⟨nargs, front ++ line, Function.update argv nargs none⟩
  := by
  have htake : line.takeWhile isBlank = line := List.takeWhile_eq_self_iff.mpr h
  have hdrop : line.dropWhile isBlank = [] := List.dropWhile_eq_nil_iff.mpr h
  simp only [parseLoop, htake, hdrop, if_true]

/-- The loop at the last word of a line. -/
theorem parseLoop_word (hb : ∀ c ∈ blanks, isBlank c) (hw : w ≠ [])
    (h : ∀ c ∈ w, isBlank c = false) :
  parseLoop (room + 1) front (blanks ++ w) nargs argv
    = ⟨nargs + 1, front ++ blanks ++ w,
        Function.update (Function.update argv nargs (some (front ++ blanks).length)) (nargs + 1) none⟩
  := by
  obtain ⟨htake, hdrop⟩ := takeWhile_isBlank hb hw h []
  rw [List.append_nil] at htake hdrop
  have hword : ∀ c ∈ w, !isBlank c := fun c hc => by rw [h c hc]; rfl
  have htake' : w.takeWhile (fun c => !isBlank c) = w := List.takeWhile_eq_self_iff.mpr hword
  have hdrop' : w.dropWhile (fun c => !isBlank c) = [] := List.dropWhile_eq_nil_iff.mpr hword
  simp only [parseLoop, htake, hdrop, if_neg hw, htake', hdrop']

/-- The loop at a word with a blank behind it. -/
theorem parseLoop_word_append (hb : ∀ c ∈ blanks, isBlank c) (hw : w ≠ [])
    (h : ∀ c ∈ w, isBlank c = false) (hc : isBlank c) (rest : List Byte) :
  parseLoop (room + 1) front (blanks ++ (w ++ c :: rest)) nargs argv
    = parseLoop room (front ++ blanks ++ w ++ [0]) rest (nargs + 1)
        (Function.update argv nargs (some (front ++ blanks).length))
  := by
  obtain ⟨htake, hdrop⟩ := takeWhile_isBlank hb hw h (c :: rest)
  have hword : ∀ c ∈ w, !isBlank c := fun c hc => by rw [h c hc]; rfl
  have hne : w ++ c :: rest ≠ [] := by simp
  have htake' : (w ++ c :: rest).takeWhile (fun c => !isBlank c) = w := by
    rw [List.takeWhile_append_of_pos hword]
    simp [hc]
  have hdrop' : (w ++ c :: rest).dropWhile (fun c => !isBlank c) = c :: rest := by
    rw [List.dropWhile_append_of_pos hword]
    simp [hc]
  simp only [parseLoop, htake, hdrop, if_neg hne, htake', hdrop']

/-- The string at a word, when a NUL or the end of the line is behind it. -/
theorem cstr_drop_append (hw : (0 : Byte) ∉ w) {tail : List Byte} (htail : tail.head?.getD 0 = 0) :
  cstr ((front ++ (w ++ tail)).drop front.length) = w
  := by
  have hw' : ∀ c ∈ w, decide (c ≠ 0) := fun c hc => by
    rw [decide_eq_true_eq]
    rintro rfl
    apply hw hc
  rw [List.drop_left, cstr, List.takeWhile_append_of_pos hw']
  cases tail with
  | nil => simp
  | cons d tail =>
    obtain rfl : d = 0 := by simpa using htail
    simp

theorem Parsed.arg_eq (front tail : List Byte) {r : Parsed} {i : ℕ} (hargv : r.argv i = some front.length)
    (hline : r.line = front ++ (w ++ tail)) (hw : (0 : Byte) ∉ w) (htail : tail.head?.getD 0 = 0) :
  r.arg i = some w
  := by
  rw [Parsed.arg, hargv, hline, Option.map_some, cstr_drop_append hw htail]

theorem parseSpec_blank (h : ∀ c ∈ line, isBlank c) :
  ParseSpec (room + 1) front line nargs argv (parseLoop (room + 1) front line nargs argv)
  := by
  have hwords : words line = [] := by
    have := words_blank_append h []
    rwa [List.append_nil, words_nil] at this
  rw [parseLoop_blank h]
  refine ⟨⟨line, rfl⟩, ?_, by simp [hwords], fun h' => absurd h' (overflows_blank h), ?_⟩
  · intro i hi
    apply Function.update_of_ne (by omega)
  · simp [hwords]

theorem parseSpec_word (hline : (0 : Byte) ∉ w) (hb : ∀ c ∈ blanks, isBlank c) (hw : w ≠ [])
    (h : ∀ c ∈ w, isBlank c = false) :
  ParseSpec (room + 1) front (blanks ++ w) nargs argv
    (parseLoop (room + 1) front (blanks ++ w) nargs argv)
  := by
  have hwords : words (blanks ++ w) = [w] := by
    rw [words_blank_append hb, words_word h hw]
  rw [parseLoop_word hb hw h]
  refine ⟨⟨blanks ++ w, by simp⟩, ?_, ?_, fun h' => absurd h' (overflows_word hb hw h), ?_⟩
  · intro i hi
    show Function.update (Function.update _ _ _) _ _ i = _
    rw [Function.update_of_ne (by omega), Function.update_of_ne (by omega)]
  · intro j hj _
    simp only [hwords, List.length_singleton, Nat.lt_one_iff] at hj
    subst hj
    simp only [hwords, List.getElem_cons_zero]
    apply Parsed.arg_eq (front ++ blanks) []
    · simp
    · simp
    · apply hline
    · rfl
  · simp [hwords]

theorem parseSpec_word_append {rest : List Byte} (hline : (0 : Byte) ∉ w)
    (hb : ∀ c ∈ blanks, isBlank c) (hw : w ≠ []) (h : ∀ c ∈ w, isBlank c = false) (hc : isBlank c)
    (ih : ∀ front nargs argv,
      ParseSpec room front rest nargs argv (parseLoop room front rest nargs argv)) :
  ParseSpec (room + 1) front (blanks ++ (w ++ c :: rest)) nargs argv
    (parseLoop (room + 1) front (blanks ++ (w ++ c :: rest)) nargs argv)
  := by
  have hwords : words (blanks ++ (w ++ c :: rest)) = w :: words rest := by
    rw [words_blank_append hb, words_word_append h hw hc]
  rw [parseLoop_word_append hb hw h hc]
  obtain ⟨⟨tail, htail⟩, hlt, harg, hfull, hfits⟩ := ih (front ++ blanks ++ w ++ [0]) (nargs + 1)
    (Function.update argv nargs (some (front ++ blanks).length))
  generalize parseLoop room (front ++ blanks ++ w ++ [0]) rest (nargs + 1)
    (Function.update argv nargs (some (front ++ blanks).length)) = r at *
  refine ⟨⟨blanks ++ w ++ [0] ++ tail, by simp [htail]⟩, ?_, ?_, ?_, ?_⟩
  · intro i hi
    rw [hlt i (by omega), Function.update_of_ne (by omega)]
  · intro j hj hroom
    simp only [hwords, List.length_cons] at hj ⊢
    cases j with
    | zero =>
      apply Parsed.arg_eq (front ++ blanks) (0 :: tail)
      · rw [Nat.add_zero, hlt nargs (by omega), Function.update_self]
      · simp [htail]
      · apply hline
      · rfl
    | succ j =>
      rw [List.getElem_cons_succ, ← harg j (by omega) (by omega)]
      congr 1
      omega
  · intro h'
    obtain ⟨hn, hargv⟩ := hfull ((overflows_word_append hb hw h hc).mp h')
    rw [Function.update_of_ne (by omega)] at hargv
    rw [show nargs + (room + 1) = nargs + 1 + room by omega]
    exact ⟨hn, hargv⟩
  · intro h'
    obtain ⟨hn, hargv⟩ := hfits fun hover => h' ((overflows_word_append hb hw h hc).mpr hover)
    rw [hwords, List.length_cons, show nargs + ((words rest).length + 1)
      = nargs + 1 + (words rest).length by omega]
    exact ⟨hn, hargv⟩

theorem parseLoop_spec (hline : (0 : Byte) ∉ line) :
  ParseSpec room front line nargs argv (parseLoop room front line nargs argv)
  := by
  -- along the recursion of the loop: each round but the last is through with one word
  induction room generalizing front line nargs argv with
  | zero =>
    refine ⟨⟨line, rfl⟩, fun _ _ => rfl, by omega, fun _ => ⟨rfl, rfl⟩, ?_⟩
    intro h
    apply absurd (overflows_zero line) h
  | succ room ih =>
    rcases line_cases line with hblank | ⟨blanks, w, rfl, hb, hw, hword⟩
      | ⟨blanks, w, c, rest, rfl, hb, hw, hword, hc⟩
    · apply parseSpec_blank hblank
    · rw [List.mem_append, not_or] at hline
      apply parseSpec_word hline.2 hb hw hword
    · simp only [List.mem_append, List.mem_cons, not_or] at hline
      apply parseSpec_word_append hline.2.1 hb hw hword hc
      intro front nargs argv
      apply ih hline.2.2.2

end

/-- **What `parse_line` does.**  It enters the first `maxargs` words; when the line has a blank
behind them, the rest of the line is dropped and `argv` is not terminated. -/
theorem parseLine_spec (maxargs : ℕ) {line : List Byte} (hline : (0 : Byte) ∉ line) (argv : Argv) :
  ParseSpec maxargs [] line 0 argv (parseLine maxargs line argv)
  := parseLoop_spec hline

end Cli
