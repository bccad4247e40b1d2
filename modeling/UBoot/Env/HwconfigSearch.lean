import UBoot.Env.Hwconfig

/-!
# What the search for an option finds

The search goes on behind every occurrence of the name that is not one.  It forgets what was in
front of the place from which it goes on, so that a name that follows another occurrence of itself
is taken for a name.  The last suboption of an option that is not the last one ends at a semicolon,
which the search does not know.  The theorem says for which strings the answers are right.
-/

namespace Hwconfig

/-! ### The strings with the right answers -/

/-- In the text of a field, an occurrence of a name follows others, with which the search is done,
directly. -/
def Doubled (name text back : List Byte) : Prop :=
  ∃ blocks, blocks ≠ [] ∧ (∀ b ∈ blocks, Occurrence.Block name b)
    ∧ text = blocks.flatten ++ name ++ back

/-- The fields, with a text behind them, in which the search for a name goes right; `first` says
that nothing is in front of them. -/
inductive Right (stopch eqch : Byte) (tail name : List Byte) : Bool → List Field → Prop where
  /-- The name is not there. -/
  | nil (first : Bool) : Right stopch eqch tail name first []
  /-- The name is there, and it is not in the last field, or nothing is behind the fields, or it
  has a value and no other field and no comma behind it. -/
  | here {first : Bool} {f : Field} {fs : List Field} (hname : f.name = name)
    (hlast : fs ≠ [] ∨ tail = [] ∨ first = true ∧ f.value ≠ none ∧ stopch ∉ tail) :
    Right stopch eqch tail name first (f :: fs)
  /-- The field has another name, and nothing in it is taken for the name. -/
  | other {first : Bool} {f : Field} {fs : List Field} (hname : f.name ≠ name)
    (hvalue : ∀ value, ¬ Doubled name (f.text eqch) (eqch :: value))
    (hend : fs ≠ [] ∨ tail = [] → ¬ Doubled name (f.text eqch) [])
    (hrest : Right stopch eqch tail name false fs) : Right stopch eqch tail name first (f :: fs)
  /-- The end of a field is taken for the name, but it has no value, and the name is there without
  a value. -/
  | lucky {first : Bool} {f g : Field} {fs : List Field} (hname : f.name ≠ name)
    (hvalue : ∀ value, ¬ Doubled name (f.text eqch) (eqch :: value))
    (hend : Doubled name (f.text eqch) []) (hlookup : lookup name fs = some g)
    (hnone : g.value = none) : Right stopch eqch tail name first (f :: fs)

/-- What is behind the argument of an option. -/
def behind : List Opt → List Byte
  | [] => []
  | opts => semicolon :: optsText opts

/-- The option is looked for as it should be, and then the suboption in its argument. -/
def Handled (cfg : Config) (opt subopt : List Byte) : Prop :=
  Right semicolon colon [] opt true (cfg.opts.map Opt.field)
  ∧ ∀ before o after, cfg.opts = before ++ o :: after → (∀ o' ∈ before, o'.name ≠ opt) →
    o.name = opt → o.subs ≠ [] →
    Right comma equals (behind after) subopt true o.fields

/-! ### The search -/

/-- The search from an offset finds something, or nothing. -/
def Search.Result (p : Search) (opts : ℕ) (r : Option ℕ) : Prop :=
  ∃ fuel, (Walk.run p.next fuel opts).map p.last = some r

namespace Search

variable {p : Search} {o o' : ℕ} {r r' : Option ℕ}

theorem result_last (h : p.next o = none) :
  p.Result o (p.last o)
  := by
  use 1
  rw [Walk.run, h]
  rfl

theorem Result.of_next (h : p.next o = some o') (hr : p.Result o' r) :
  p.Result o r
  := by
  obtain ⟨fuel, hfuel⟩ := hr
  use fuel + 1
  rwa [Walk.run, h]

theorem Result.unique (h : p.Result o r) (h' : p.Result o r') :
  r = r'
  := by
  obtain ⟨fuel, hfuel⟩ := h
  obtain ⟨fuel', hfuel'⟩ := h'
  obtain ⟨e, he, rfl⟩ := Option.map_eq_some_iff.mp hfuel
  obtain ⟨e', he', rfl⟩ := Option.map_eq_some_iff.mp hfuel'
  have hmax := Walk.run_mono (le_max_left fuel fuel') he
  rw [Walk.run_mono (le_max_right fuel fuel') he', Option.some.injEq] at hmax
  rw [hmax]

/-- The search goes on in the same way from two offsets. -/
theorem Result.congr (h : p.Result o r) (hnext : p.next o' = p.next o)
    (hlast : p.last o' = p.last o) :
  p.Result o' r
  := by
  obtain ⟨fuel, hfuel⟩ := h
  cases fuel with
  | zero => cases hfuel
  | succ fuel =>
    use fuel + 1
    rw [Walk.run] at hfuel ⊢
    rw [hnext]
    cases hn : p.next o with
    | none =>
      rw [hn] at hfuel
      rw [← hfuel, Option.map_some, Option.map_some, hlast]
    | some e =>
      rw [hn] at hfuel
      apply hfuel

/-- The search for a name ends. -/
theorem exists_result (hopt : p.opt ≠ []) (o : ℕ) :
  ∃ r, p.Result o r
  := by
  have hends : Walk.Ends p.next o := by
    apply Walk.ends_of_measure (fun o => p.opts.length - o) (I := fun _ => True) _ trivial
    intro t e _ hnext
    refine ⟨trivial, ?_⟩
    obtain ⟨str, hstr, hif⟩ := Option.bind_eq_some_iff.mp hnext
    obtain ⟨i, hi, rfl⟩ := Option.map_eq_some_iff.mp hstr
    have hinfix : p.opt <:+: p.opts.drop t := by
      by_contra hinfix
      rw [strstr, Occurrence.find_eq_none_iff.mpr hinfix] at hi
      cases hi
    have hle := hinfix.length_le
    have hpos := List.length_pos_iff.mpr hopt
    rw [List.length_drop] at hle
    split_ifs at hif
    obtain rfl := Option.some.inj hif
    omega
  obtain ⟨fuel, hfuel⟩ := hends
  obtain ⟨e, he⟩ := Option.isSome_iff_exists.mp hfuel
  refine ⟨p.last e, fuel, ?_⟩
  rw [he, Option.map_some]

/-- What is behind an occurrence ends a name. -/
def EndsName (p : Search) (after : List Byte) : Prop :=
  after.head? = some p.stopch ∨ after.head? = some p.eqch ∨ after.head? = none

section Blocks

variable {front u after : List Byte}

theorem strFrom_block (hopts : p.opts = front ++ (u ++ p.opt ++ after))
    (hblock : Occurrence.Block p.opt (u ++ p.opt)) :
  p.strFrom front.length = some (front.length + u.length)
  := by
  rw [strFrom, strstr, hopts, List.drop_left, Occurrence.find_block hblock]
  rfl

theorem strFrom_none (hopts : p.opts = front ++ after) (h : ¬ p.opt <:+: after) :
  p.strFrom front.length = none
  := by
  rw [strFrom, strstr, hopts, List.drop_left, Occurrence.find_eq_none_iff.mpr h]
  rfl

/-- An occurrence behind something that is no separator. -/
theorem isName_iff (hopts : p.opts = front ++ (u ++ p.opt ++ after)) (hu : p.stopch ∉ u) :
  p.IsName front.length (front.length + u.length) ↔ u = [] ∧ p.EndsName after
  := by
  have hafter : p.opts[front.length + u.length + p.opt.length]? = after.head? := by
    rw [hopts, ← List.append_assoc, ← List.append_assoc, List.head?_eq_getElem?,
      List.getElem?_append_right (by simp; omega)]
    congr 1
    simp
    omega
  rw [IsName, hafter]
  apply and_congr_left
  intro _
  constructor
  · rintro (h | h)
    · apply List.length_eq_zero_iff.mp
      omega
    · by_contra hne
      have hpos := List.length_pos_iff.mpr hne
      rw [hopts, List.getElem?_append_right (by omega), List.append_assoc,
        List.getElem?_append_left (by omega)] at h
      apply hu
      apply List.mem_of_getElem? h
  · rintro rfl
    left
    rfl

/-- A name is found. -/
theorem result_hit (hopts : p.opts = front ++ (p.opt ++ after)) (hopt : p.opt ≠ [])
    (hend : p.EndsName after) (hlen : front.length + p.opt.length ≤ p.maxlen) :
  p.Result front.length (some front.length)
  := by
  have hstr := strFrom_block (u := []) hopts (Occurrence.block_self hopt)
  have hname := (isName_iff (u := []) hopts List.not_mem_nil).mpr ⟨rfl, hend⟩
  rw [List.length_nil, Nat.add_zero] at hstr hname
  have hlast := result_last (p := p) (o := front.length) (by simp [next, hstr, hname])
  rwa [last, hstr, Option.filter_some_pos (by simpa using hlen)] at hlast

/-- Something that is no name is left behind. -/
theorem result_miss (hopts : p.opts = front ++ (u ++ p.opt ++ after))
    (hblock : Occurrence.Block p.opt (u ++ p.opt)) (hu : p.stopch ∉ u)
    (hmiss : ¬ (u = [] ∧ p.EndsName after))
    (hlen : front.length + (u ++ p.opt).length ≤ p.maxlen)
    (hr : p.Result (front ++ (u ++ p.opt)).length r) :
  p.Result front.length r
  := by
  rw [List.length_append] at hlen
  have hstr := strFrom_block hopts hblock
  have hname := (isName_iff hopts hu).not.mpr hmiss
  refine hr.of_next ?_
  rw [next, hstr, Option.bind_some, if_neg]
  · simp [Nat.add_assoc]
  · rintro (h | h)
    · omega
    · apply hname h

/-- A separator between two fields may be skipped. -/
theorem result_skip (hopts : p.opts = front ++ (u ++ p.stopch :: after)) (hopt : p.opt ≠ [])
    (hstop : p.stopch ∉ p.opt) (hu : ¬ p.opt <:+: u)
    (hr : p.Result (front ++ u ++ [p.stopch]).length r) :
  p.Result front.length r
  := by
  have hopts' : p.opts = (front ++ u ++ [p.stopch]) ++ after := by
    rw [hopts, List.append_assoc, List.append_assoc]
    rfl
  have hstr : p.strFrom front.length = p.strFrom (front ++ u ++ [p.stopch]).length := by
    rw [strFrom, strFrom, hopts, List.drop_left, strstr, Occurrence.find_skip hopt hstop hu,
      ← hopts, hopts', List.drop_left, strstr, Option.map_map]
    congr 1
    funext i
    simp
    omega
  apply hr.congr
  · rw [next, next, hstr]
    cases hfound : p.strFrom (front ++ u ++ [p.stopch]).length with
    | none => rfl
    | some str =>
      have hle : (front ++ u ++ [p.stopch]).length ≤ str := by
        rw [strFrom, Option.map_eq_some_iff] at hfound
        obtain ⟨i, _, rfl⟩ := hfound
        apply Nat.le_add_right
      have hname : p.IsName front.length str ↔ p.IsName (front ++ u ++ [p.stopch]).length str := by
        apply and_congr_left
        intro _
        rcases hle.eq_or_lt with rfl | hlt
        · -- the separator is in front of what is found
          have hbefore : p.opts[(front ++ u ++ [p.stopch]).length - 1]? = some p.stopch := by
            rw [hopts', List.getElem?_append_left (by simp), ← List.getLast?_eq_getElem?,
              List.getLast?_append]
            rfl
          exact ⟨fun _ => .inl rfl, fun _ => .inr hbefore⟩
        · have hne : str ≠ (front ++ u ++ [p.stopch]).length := hlt.ne'
          have hne' : str ≠ front.length := by
            simp at hlt
            omega
          simp only [hne, hne']
      simp only [Option.bind_some, hname]
  · rw [last, last, hstr]

/-- Nothing is found in front of the end. -/
theorem result_end (hopts : p.opts = front ++ (u ++ after)) (hopt : p.opt ≠ [])
    (hafter : after = [] ∨ ∃ c rest, after = c :: rest ∧ c ∉ p.opt) (hu : ¬ p.opt <:+: u)
    (hlen : p.maxlen = front.length + u.length) :
  p.Result front.length none
  := by
  have hstr : ∀ str ∈ p.strFrom front.length, p.maxlen < str + p.opt.length := by
    intro str h
    obtain rfl | ⟨c, rest, rfl, hc⟩ := hafter
    · rw [List.append_nil] at hopts
      rw [strFrom_none hopts hu] at h
      cases h
    · rw [strFrom, strstr, hopts, List.drop_left, Occurrence.find_skip hopt hc hu, Option.map_map]
        at h
      obtain ⟨i, _, rfl⟩ := Option.map_eq_some_iff.mp h
      simp only [Function.comp_apply]
      omega
  have hlast := result_last (p := p) (o := front.length) ?_
  · rwa [last, Option.filter_eq_none_iff.mpr] at hlast
    intro str h
    simpa using hstr str h
  · rw [next, Option.bind_eq_none_iff]
    intro str h
    rw [if_pos (.inl (hstr str h))]

end Blocks

/-! ### The search in a field -/

section Fields

variable {front text after : List Byte}

/-- What the search needs of the text of a field. -/
structure InField (p : Search) (front text after : List Byte) : Prop where
  opts : p.opts = front ++ (text ++ after)
  opt : p.opt ≠ []
  stopch : p.stopch ∉ text
  maxlen : front.length + text.length ≤ p.maxlen
  whole : ∀ back, text = p.opt ++ back → ¬ p.EndsName (back ++ after)

/-- The search leaves a field behind in which nothing is taken for the name. -/
theorem InField.result_other (h : InField p front text after)
    (hdoubled : ∀ back, Doubled p.opt text back → ¬ p.EndsName (back ++ after))
    (hrest : ∀ done rest, text = done ++ rest → ¬ p.opt <:+: rest →
      p.Result (front ++ done).length r) :
  p.Result front.length r
  := by
  have hgeneral : ∀ n (blocks : List (List Byte)) rest, rest.length = n →
      text = blocks.flatten ++ rest → (∀ b ∈ blocks, Occurrence.Block p.opt b) →
      p.Result (front ++ blocks.flatten).length r := by
    intro n
    induction n using Nat.strong_induction_on with
    | _ n ih =>
      intro blocks rest hn htext hblocks
      by_cases hinfix : p.opt <:+: rest
      · obtain ⟨u, back, rfl, hblock⟩ := Occurrence.exists_block h.opt hinfix
        have hpos := List.length_pos_iff.mpr h.opt
        have hopts : p.opts = (front ++ blocks.flatten) ++ (u ++ p.opt ++ (back ++ after)) := by
          rw [h.opts, htext]
          simp only [List.append_assoc]
        apply result_miss hopts hblock
        · intro hu
          apply h.stopch
          rw [htext]
          simp [hu]
        · rintro ⟨rfl, hend⟩
          cases blocks with
          | nil => apply h.whole back htext hend
          | cons b blocks =>
            apply hdoubled back ⟨b :: blocks, List.cons_ne_nil _ _, hblocks, ?_⟩ hend
            rw [htext, List.nil_append, List.append_assoc]
        · have hlen := h.maxlen
          rw [htext] at hlen
          simp only [List.length_append] at hlen ⊢
          omega
        · have hnext := ih back.length (by simp at hn; omega) (blocks ++ [u ++ p.opt]) back rfl
            (by simp [htext]) ?_
          · simpa using hnext
          · intro b hb
            rw [List.mem_append, List.mem_singleton] at hb
            rcases hb with hb | rfl
            · apply hblocks b hb
            · apply hblock
      · apply hrest _ rest htext hinfix
  have hstart := hgeneral text.length [] text rfl rfl nofun
  rwa [List.flatten_nil, List.append_nil] at hstart

/-- From an offset, the search finds something in a field that is no name, and that has not less
behind it than a given text. -/
def Mistakes (p : Search) (front text after back : List Byte) (o : ℕ) : Prop :=
  ∃ front' back', Doubled p.opt text back' ∧ p.EndsName (back' ++ after)
    ∧ back.length ≤ back'.length ∧ text = front' ++ p.opt ++ back' ∧ front' ≠ []
    ∧ p.Result o (some (front ++ front').length)

/-- An occurrence behind others that ends like a name is found. -/
theorem InField.mistakes (h : InField p front text after) {back back' : List Byte}
    {done : List (List Byte)} (hne : done ≠ []) (hdone : ∀ b ∈ done, Occurrence.Block p.opt b)
    (hle : back.length ≤ back'.length) (htext : text = done.flatten ++ p.opt ++ back')
    (hend : p.EndsName (back' ++ after)) :
  p.Mistakes front text after back (front ++ done.flatten).length
  := by
  refine ⟨done.flatten, back', ⟨done, hne, hdone, htext⟩, hend, hle, htext, ?_, ?_⟩
  · obtain ⟨b, hb⟩ := List.exists_mem_of_ne_nil done hne
    intro hnil
    have hb' := List.flatten_eq_nil_iff.mp hnil b hb
    apply h.opt
    apply List.eq_nil_of_suffix_nil
    rw [← hb']
    apply (hdone b hb).1
  · have hopts : p.opts = (front ++ done.flatten) ++ (p.opt ++ (back' ++ after)) := by
      rw [h.opts, htext]
      simp only [List.append_assoc]
    apply result_hit hopts h.opt hend
    · have hlen := h.maxlen
      rw [htext] at hlen
      simp only [List.length_append] at hlen ⊢
      omega

/-- Something that is no name is found: the first occurrence behind others that ends like one. -/
theorem InField.mistakes_of_doubled (h : InField p front text after) {back : List Byte}
    (hdoubled : Doubled p.opt text back) (hend : p.EndsName (back ++ after)) :
  p.Mistakes front text after back front.length
  := by
  have hgeneral : ∀ blocks done : List (List Byte), done ≠ [] ∨ blocks ≠ [] →
      (∀ b ∈ done, Occurrence.Block p.opt b) → (∀ b ∈ blocks, Occurrence.Block p.opt b) →
      text = done.flatten ++ (blocks.flatten ++ p.opt ++ back) →
      p.Mistakes front text after back (front ++ done.flatten).length := by
    intro blocks
    induction blocks with
    | nil =>
      intro done hne hdone _ htext
      apply h.mistakes (hne.resolve_right fun hnil => hnil rfl) hdone le_rfl _ hend
      rw [htext, List.flatten_nil, List.nil_append, List.append_assoc]
    | cons b blocks ih =>
      intro done hne hdone hblocks htext
      obtain ⟨u, rfl⟩ := (hblocks b List.mem_cons_self).1
      by_cases hhit : u = [] ∧ p.EndsName (blocks.flatten ++ p.opt ++ back ++ after)
      · obtain ⟨rfl, hend'⟩ := hhit
        cases done with
        | nil =>
          apply absurd hend'
          apply h.whole
          rw [htext]
          simp
        | cons b' done =>
          apply h.mistakes (List.cons_ne_nil _ _) hdone _ _ hend'
          · simp
            omega
          · rw [htext]
            simp
      · have hnext := ih (done ++ [u ++ p.opt]) (.inl (by simp)) ?_ ?_ ?_
        · obtain ⟨front', back', hdoubled', hend', hle, htext', hne', hresult⟩ := hnext
          refine ⟨front', back', hdoubled', hend', hle, htext', hne', ?_⟩
          have hopts : p.opts = (front ++ done.flatten)
              ++ (u ++ p.opt ++ (blocks.flatten ++ p.opt ++ back ++ after)) := by
            rw [h.opts, htext]
            simp
          apply result_miss hopts (hblocks _ List.mem_cons_self)
          · intro hu
            apply h.stopch
            rw [htext]
            simp [hu]
          · apply hhit
          · have hlen := h.maxlen
            rw [htext] at hlen
            simp at hlen ⊢
            omega
          · simpa using hresult
        · intro b hb
          rw [List.mem_append, List.mem_singleton] at hb
          rcases hb with hb | rfl
          · apply hdone b hb
          · apply hblocks _ List.mem_cons_self
        · intro b hb
          apply hblocks b (List.mem_cons_of_mem _ hb)
        · rw [htext]
          simp
  obtain ⟨blocks, hne, hblocks, htext⟩ := hdoubled
  have hstart := hgeneral blocks [] (.inr hne) nofun hblocks (by rw [htext]; simp)
  rwa [List.flatten_nil, List.append_nil] at hstart

end Fields

/-! ### The search in several fields -/

/-- The search is in front of the first of several fields; `first` says that it has just begun. -/
structure InFields (p : Search) (first : Bool) (front : List Byte) (fs : List Field)
    (tail : List Byte) : Prop where
  opts : p.opts = front ++ (joined p.stopch p.eqch fs ++ tail)
  maxlen : p.maxlen = front.length + (joined p.stopch p.eqch fs).length
  opt : p.opt ≠ []
  stopch : p.stopch ∉ p.opt
  eqch : p.eqch ∉ p.opt
  ne : p.stopch ≠ p.eqch
  fields : ∀ f ∈ fs, p.eqch ∉ f.name ∧ p.stopch ∉ f.text p.eqch
  tail : tail = [] ∨ ∃ c rest, tail = c :: rest ∧ c ≠ p.stopch ∧ c ≠ p.eqch ∧ c ∉ p.opt
  first : first = true ↔ front = []
  size : p.opts.length < 2 ^ 32

/-- The search answers like the fields. -/
def Agrees (p : Search) (front : List Byte) (fs : List Field) : Prop :=
  ∃ r, p.Result front.length r ∧ r.isSome = (lookup p.opt fs).isSome
    ∧ r.bind p.arg = lookupValue p.eqch p.opt front.length fs

/-- What is behind the first field. -/
def follow (stopch eqch : Byte) (fs : List Field) (tail : List Byte) : List Byte :=
  match fs with
  | [] => tail
  | fs => stopch :: (joined stopch eqch fs ++ tail)

theorem joined_append (stopch eqch : Byte) (f : Field) (fs : List Field) (tail : List Byte) :
  joined stopch eqch (f :: fs) ++ tail = f.text eqch ++ follow stopch eqch fs tail
  := by
  cases fs with
  | nil => rfl
  | cons g fs => simp [joined, follow]

section Level

variable {first : Bool} {front tail : List Byte} {f : Field} {fs : List Field}

theorem InFields.opts_cons (h : p.InFields first front (f :: fs) tail) :
  p.opts = front ++ (f.text p.eqch ++ follow p.stopch p.eqch fs tail)
  := by
  rw [h.opts, joined_append]

theorem InFields.length_le (h : p.InFields first front (f :: fs) tail) :
  front.length + (f.text p.eqch).length ≤ p.maxlen
  := by
  rw [h.maxlen]
  cases fs with
  | nil => exact le_rfl
  | cons g fs =>
    simp only [joined, List.length_append]
    omega

/-- The search is in front of the next field. -/
theorem InFields.rest (h : p.InFields first front (f :: fs) tail) (hfs : fs ≠ []) :
  p.InFields false (front ++ f.text p.eqch ++ [p.stopch]) fs tail
  := by
  cases fs with
  | nil => exact absurd rfl hfs
  | cons g fs =>
    constructor
    case opts =>
      rw [h.opts_cons]
      simp [follow]
    case maxlen =>
      rw [h.maxlen]
      simp only [joined, List.length_append, List.length_cons, List.length_nil]
      omega
    case opt => apply h.opt
    case stopch => apply h.stopch
    case eqch => apply h.eqch
    case ne => apply h.ne
    case fields =>
      intro f' hf'
      apply h.fields f' (List.mem_cons_of_mem _ hf')
    case tail => apply h.tail
    case first => simp
    case size => apply h.size

/-- Another name with something behind it is not the name. -/
theorem append_ne_of_name_ne {eqch : Byte} {name : List Byte} (hname : eqch ∉ name)
    (hf : eqch ∉ f.name) (hne : f.name ≠ name) :
  f.text eqch ≠ name ∧ ∀ back, f.text eqch ≠ name ++ eqch :: back
  := by
  have htake {name' rest : List Byte} (hname' : eqch ∉ name')
      (hrest : rest = [] ∨ ∃ rest', rest = eqch :: rest') :
      (name' ++ rest).takeWhile (· ≠ eqch) = name' := by
    rw [List.takeWhile_append_of_pos]
    · obtain rfl | ⟨rest', rfl⟩ := hrest
      · rw [List.takeWhile_nil, List.append_nil]
      · rw [List.takeWhile_cons_of_neg (by simp), List.append_nil]
    · intro b hb
      simp only [decide_eq_true_eq]
      rintro rfl
      apply hname' hb
  have hftake : (f.text eqch).takeWhile (· ≠ eqch) = f.name := by
    apply htake hf
    cases f.value with
    | none =>
      left
      rfl
    | some value =>
      right
      use value
  constructor
  · intro h
    apply hne
    have hself := htake hname (.inl rfl)
    rw [List.append_nil] at hself
    rw [← hftake, h, hself]
  · intro back h
    apply hne
    rw [← hftake, h, htake hname (.inr ⟨back, rfl⟩)]

/-- What is behind all fields ends a name only if it is nothing. -/
theorem InFields.endsName_tail (h : p.InFields first front fs tail) :
  p.EndsName tail ↔ tail = []
  := by
  obtain htail | ⟨c, rest, rfl, hstop, heq, _⟩ := h.tail
  · simp [htail, EndsName]
  · simp [EndsName, hstop, heq]

theorem InFields.endsName_follow (h : p.InFields first front (f :: fs) tail) :
  p.EndsName (follow p.stopch p.eqch fs tail) ↔ fs ≠ [] ∨ tail = []
  := by
  cases fs with
  | nil =>
    rw [follow, h.endsName_tail]
    simp
  | cons g fs => simp [follow, EndsName]

/-- What is behind an occurrence in a field ends a name if it is the end of the field, or begins
like a value. -/
theorem InFields.endsName_back (h : p.InFields first front (f :: fs) tail) {front' back : List Byte}
    (htext : f.text p.eqch = front' ++ back) :
  p.EndsName (back ++ follow p.stopch p.eqch fs tail)
    ↔ back = [] ∧ (fs ≠ [] ∨ tail = []) ∨ ∃ value, back = p.eqch :: value
  := by
  cases back with
  | nil =>
    rw [List.nil_append, h.endsName_follow]
    simp
  | cons b back =>
    have hb : b ≠ p.stopch := by
      rintro rfl
      apply (h.fields f List.mem_cons_self).2
      rw [htext]
      simp
    simp [EndsName, hb, eq_comm]

theorem InFields.inField (h : p.InFields first front (f :: fs) tail) (hname : f.name ≠ p.opt) :
  p.InField front (f.text p.eqch) (follow p.stopch p.eqch fs tail)
  := by
  obtain ⟨heq, hstop⟩ := h.fields f List.mem_cons_self
  obtain ⟨hne, hne'⟩ := append_ne_of_name_ne h.eqch heq hname
  constructor
  case opts => apply h.opts_cons
  case opt => apply h.opt
  case stopch => apply hstop
  case maxlen => apply h.length_le
  case whole =>
    intro back htext hend
    obtain ⟨rfl, _⟩ | ⟨value, rfl⟩ := (h.endsName_back htext).mp hend
    · apply hne
      rw [htext, List.append_nil]
    · apply hne' value htext

/-- The search goes on behind a field. -/
theorem InFields.result_rest (h : p.InFields first front (f :: fs) tail) {done rest : List Byte}
    (htext : f.text p.eqch = done ++ rest) (hrest : ¬ p.opt <:+: rest)
    (hnone : fs = [] → r = none)
    (hr : fs ≠ [] → p.Result (front ++ f.text p.eqch ++ [p.stopch]).length r) :
  p.Result (front ++ done).length r
  := by
  have hopts := h.opts_cons
  rw [htext, List.append_assoc, ← List.append_assoc front] at hopts
  cases fs with
  | nil =>
    rw [hnone rfl]
    apply result_end hopts h.opt _ hrest
    · rw [h.maxlen, joined, htext]
      simp only [List.length_append]
      omega
    · obtain htail | ⟨c, rest, htail, _, _, hc⟩ := h.tail
      · left
        apply htail
      · right
        exact ⟨c, rest, htail, hc⟩
  | cons g fs =>
    apply result_skip hopts h.opt h.stopch hrest
    rw [List.append_assoc front, ← htext]
    apply hr (List.cons_ne_nil _ _)

/-- There is no argument behind a name that is followed by something else. -/
theorem arg_eq_none {u back : List Byte} (hopts : p.opts = u ++ (p.opt ++ back))
    (hback : back.head? ≠ some p.eqch) :
  p.arg u.length = none
  := by
  rw [arg, if_pos]
  rwa [hopts, List.getElem?_append_right (by omega), List.getElem?_append_right (by omega),
    Nat.add_sub_cancel_left, Nat.sub_self, ← List.head?_eq_getElem?]

/-- There is an argument behind a name that is followed by one. -/
theorem arg_fst {u back : List Byte} (hopts : p.opts = u ++ (p.opt ++ p.eqch :: back)) :
  ∃ len, p.arg u.length = some (u.length + p.opt.length + 1, len)
  := by
  have heq : p.opts[u.length + p.opt.length]? = some p.eqch := by
    rw [hopts, List.getElem?_append_right (by omega), List.getElem?_append_right (by omega),
      Nat.add_sub_cancel_left, Nat.sub_self]
    rfl
  rw [arg, if_neg (not_not.mpr heq)]
  split
  · exact ⟨_, rfl⟩
  · exact ⟨_, rfl⟩

theorem strchr_append {s : List Byte} {c : Byte} (h : c ∉ s) (s' : List Byte) :
  strchr (s ++ s') c = (strchr s' c).map (· + s.length)
  := by
  induction s with
  | nil => simp
  | cons b s ih =>
    rw [List.mem_cons, not_or] at h
    rw [strchr] at ih ⊢
    rw [List.cons_append, List.idxOf?_cons, if_neg (by simpa using Ne.symm h.1), ih h.2,
      Option.map_map]
    rfl

/-- The length of the argument. -/
theorem InFields.arg_iff (h : p.InFields first front (f :: fs) tail) (hname : f.name = p.opt)
    {value : List Byte} (hvalue : f.value = some value) :
  p.arg front.length = some (front.length + p.opt.length + 1, value.length)
    ↔ fs ≠ [] ∨ tail = [] ∨ first = true ∧ p.stopch ∉ tail
  := by
  have htext : f.text p.eqch = p.opt ++ p.eqch :: value := by rw [Field.text, hname, hvalue]
  have hopts := h.opts_cons
  have hstop := (h.fields f List.mem_cons_self).2
  have hsize := h.size
  have hdrop : p.opts.drop front.length
      = f.text p.eqch ++ follow p.stopch p.eqch fs tail := by
    rw [hopts, List.drop_left]
  have hlen : (f.text p.eqch).length = p.opt.length + 1 + value.length := by
    rw [htext, List.length_append, List.length_cons]
    omega
  have hchr : strchr (p.opts.drop front.length) p.stopch
      = (strchr (follow p.stopch p.eqch fs tail) p.stopch).map
        (· + (f.text p.eqch).length) := by
    rw [hopts, List.drop_left, strchr_append hstop]
  have heq : p.opts[front.length + p.opt.length]? = some p.eqch := by
    rw [hopts, htext, List.getElem?_append_right (by omega), Nat.add_sub_cancel_left,
      List.append_assoc, List.getElem?_append_right (by omega), Nat.sub_self]
    rfl
  have htotal : p.opts.length = front.length + (f.text p.eqch).length
      + (follow p.stopch p.eqch fs tail).length := by
    rw [hopts, List.length_append, List.length_append, Nat.add_assoc]
  rw [arg, if_neg (not_not.mpr heq), hchr]
  cases fs with
  | cons g fs =>
    have hfirst : strchr (follow p.stopch p.eqch (g :: fs) tail) p.stopch = some 0 := by
      simp [strchr, follow, List.idxOf?_cons]
    rw [hfirst]
    simp only [Option.map_some, Option.some.injEq, Prod.mk.injEq, true_and, ne_eq, reduceCtorEq,
      not_false_eq_true, true_or, iff_true]
    omega
  | nil =>
    rw [follow] at htotal ⊢
    have hmax := h.maxlen
    rw [joined] at hmax
    have hfront : front = [] ↔ front.length = 0 := List.length_eq_zero_iff.symm
    have htail : tail = [] ↔ tail.length = 0 := List.length_eq_zero_iff.symm
    cases hstr : strchr tail p.stopch with
    | none =>
      rw [strchr, List.idxOf?_eq_none_iff] at hstr
      simp only [Option.map_none, Option.some.injEq, Prod.mk.injEq, true_and, ne_eq,
        not_true_eq_false, false_or, List.length_drop, hstr, not_false_eq_true, and_true, h.first,
        hfront, htail]
      omega
    | some k =>
      have hk : 0 < k ∧ k < tail.length ∧ p.stopch ∈ tail ∧ tail ≠ [] := by
        rw [strchr, List.idxOf?_eq_some_iff] at hstr
        obtain ⟨hlt, hget, _⟩ := hstr
        have hmem : p.stopch ∈ tail := hget ▸ List.getElem_mem hlt
        refine ⟨?_, hlt, hmem, List.ne_nil_of_mem hmem⟩
        obtain rfl | ⟨c, rest, rfl, hc, _⟩ := h.tail
        · cases hlt
        · apply Nat.pos_of_ne_zero
          rintro rfl
          apply hc hget
      simp only [Option.map_some, Option.some.injEq, Prod.mk.injEq, true_and, ne_eq,
        hk.2.2, not_true_eq_false, and_false, or_false, iff_false]
      omega

/-- The search goes right if the first field has the name. -/
theorem InFields.agrees_here (h : p.InFields first front (f :: fs) tail) (hname : f.name = p.opt) :
  p.Agrees front (f :: fs) ↔ fs ≠ [] ∨ tail = [] ∨ first = true ∧ f.value ≠ none ∧ p.stopch ∉ tail
  := by
  have hlookup : lookup p.opt (f :: fs) = some f := List.find?_cons_of_pos (by simpa using hname)
  have hlen := h.length_le
  rw [Field.text, List.length_append, hname] at hlen
  cases hvalue : f.value with
  | none =>
    have hopts : p.opts = front ++ (p.opt ++ follow p.stopch p.eqch fs tail) := by
      rw [h.opts_cons, Field.text, hname, hvalue, List.append_nil]
    have hright : (fs ≠ [] ∨ tail = [] ∨ first = true ∧ (none : Option (List Byte)) ≠ none
        ∧ p.stopch ∉ tail) ↔ p.EndsName (follow p.stopch p.eqch fs tail) := by
      rw [h.endsName_follow]
      simp
    rw [hright]
    by_cases hend : p.EndsName (follow p.stopch p.eqch fs tail)
    · -- the name is found, and there is no argument
      have hresult := result_hit hopts h.opt hend (by omega)
      have hhead : (follow p.stopch p.eqch fs tail).head? ≠ some p.eqch := by
        rw [h.endsName_follow] at hend
        cases fs with
        | nil => simp [follow, hend.resolve_left fun hnil => hnil rfl]
        | cons g fs => simp [follow, h.ne]
      refine iff_of_true ⟨_, hresult, ?_, ?_⟩ hend
      · rw [hlookup]
        rfl
      · rw [Option.bind_some, arg_eq_none hopts hhead, lookupValue, if_pos hname, hvalue]
        rfl
    · -- the name is not found, because a semicolon is behind it
      obtain ⟨rfl, htail⟩ : fs = [] ∧ tail ≠ [] := by
        rw [h.endsName_follow, not_or, not_not] at hend
        exact hend
      refine iff_of_false ?_ hend
      rintro ⟨r, hr, hsome, _⟩
      have hnone : p.Result front.length none := by
        apply result_miss (u := []) hopts (Occurrence.block_self h.opt) List.not_mem_nil
        · intro hhit
          apply hend hhit.2
        · rw [List.nil_append]
          omega
        · have htext : f.text p.eqch = [] ++ p.opt ++ [] := by
            rw [Field.text, hname, hvalue]
            rfl
          apply h.result_rest htext _ (fun _ => rfl) (absurd rfl)
          rw [List.infix_nil]
          apply h.opt
      rw [hr.unique hnone, hlookup] at hsome
      cases hsome
  | some value =>
    have hopts : p.opts
        = front ++ (p.opt ++ (p.eqch :: value ++ follow p.stopch p.eqch fs tail)) := by
      rw [h.opts_cons, Field.text, hname, hvalue, List.append_assoc]
    have hresult := result_hit hopts h.opt (.inr (.inl rfl)) (by omega)
    have harg := h.arg_iff hname hvalue
    have hright : (fs ≠ [] ∨ tail = [] ∨ first = true ∧ (some value : Option (List Byte)) ≠ none
        ∧ p.stopch ∉ tail) ↔ (fs ≠ [] ∨ tail = [] ∨ first = true ∧ p.stopch ∉ tail) := by
      simp
    have hvalues : lookupValue p.eqch p.opt front.length (f :: fs)
        = some (front.length + p.opt.length + 1, value.length) := by
      rw [lookupValue, if_pos hname, hvalue]
      rfl
    rw [hright, ← harg]
    constructor
    · rintro ⟨r, hr, _, hbind⟩
      rwa [hr.unique hresult, hvalues] at hbind
    · intro harg
      refine ⟨_, hresult, ?_, ?_⟩
      · rw [hlookup]
        rfl
      · rw [hvalues]
        apply harg

theorem fst_of_lookupValue {eqch : Byte} {name : List Byte} {o : ℕ} {found : ℕ × ℕ}
    (h : lookupValue eqch name o fs = some found) :
  o < found.1
  := by
  induction fs generalizing o with
  | nil => cases h
  | cons f fs ih =>
    rw [lookupValue] at h
    split_ifs at h
    · obtain ⟨value, _, rfl⟩ := Option.map_eq_some_iff.mp h
      simp only
      omega
    · have := ih h
      omega

theorem lookup_of_lookupValue {eqch : Byte} {name : List Byte} {o : ℕ} {g : Field}
    (h : lookupValue eqch name o fs = none) (hg : lookup name fs = some g) :
  g.value = none
  := by
  induction fs generalizing o with
  | nil => cases hg
  | cons f fs ih =>
    rw [lookupValue] at h
    rw [lookup, List.find?_cons] at hg
    split_ifs at h with hname
    · rw [decide_eq_true hname] at hg
      obtain rfl := Option.some.inj hg
      rwa [Option.map_eq_none_iff] at h
    · rw [decide_eq_false hname] at hg
      apply ih h hg

theorem lookupValue_eq_none {eqch : Byte} {name : List Byte} (o : ℕ) {g : Field}
    (hg : lookup name fs = some g) (hnone : g.value = none) :
  lookupValue eqch name o fs = none
  := by
  induction fs generalizing o with
  | nil => rfl
  | cons f fs ih =>
    rw [lookup, List.find?_cons] at hg
    rw [lookupValue]
    split_ifs with hname
    · rw [decide_eq_true hname] at hg
      obtain rfl := Option.some.inj hg
      rw [hnone]
      rfl
    · rw [decide_eq_false hname] at hg
      apply ih _ hg

theorem lookup_of_name_ne {name : List Byte} (hname : f.name ≠ name) :
  lookup name (f :: fs) = lookup name fs
  := List.find?_cons_of_neg (by simpa using hname)

theorem lookupValue_of_name_ne {eqch : Byte} {name : List Byte} (hname : f.name ≠ name)
    (front : List Byte) (b : Byte) :
  lookupValue eqch name front.length (f :: fs)
    = lookupValue eqch name (front ++ f.text eqch ++ [b]).length fs
  := by
  rw [lookupValue, if_neg hname]
  simp only [List.length_append, List.length_singleton]

/-- The search goes wrong if it finds a value that is not behind a name. -/
theorem InFields.not_agrees_of_value (h : p.InFields first front (f :: fs) tail)
    (hname : f.name ≠ p.opt) {value : List Byte}
    (hvalue : Doubled p.opt (f.text p.eqch) (p.eqch :: value)) :
  ¬ p.Agrees front (f :: fs)
  := by
  have hfield := h.inField hname
  obtain ⟨front', back, _, hend, hle, htext, _, hresult⟩ :=
    hfield.mistakes_of_doubled hvalue (.inr (.inl rfl))
  obtain ⟨rfl, _⟩ | ⟨value', rfl⟩ := (h.endsName_back htext).mp hend
  · simp at hle
  · rintro ⟨r, hr, _, hbind⟩
    have hopts : p.opts = (front ++ front')
        ++ (p.opt ++ p.eqch :: (value' ++ follow p.stopch p.eqch fs tail)) := by
      rw [h.opts_cons, htext]
      simp
    obtain ⟨len, harg⟩ := arg_fst hopts
    rw [hr.unique hresult, Option.bind_some, harg, lookupValue, if_neg hname] at hbind
    have hlt := fst_of_lookupValue hbind.symm
    rw [htext] at hlt
    simp only [List.length_append, List.length_cons] at hlt
    omega

/-- The search answers by chance if it takes the end of a field for the name. -/
theorem InFields.agrees_iff_of_end (h : p.InFields first front (f :: fs) tail)
    (hname : f.name ≠ p.opt)
    (hvalue : ∀ value, ¬ Doubled p.opt (f.text p.eqch) (p.eqch :: value))
    (hdoubled : Doubled p.opt (f.text p.eqch) []) (hlast : fs ≠ [] ∨ tail = []) :
  p.Agrees front (f :: fs) ↔ ∃ g, lookup p.opt fs = some g ∧ g.value = none
  := by
  have hfield := h.inField hname
  obtain ⟨front', back, hback, hend, _, htext, _, hresult⟩ :=
    hfield.mistakes_of_doubled hdoubled (h.endsName_follow.mpr hlast)
  obtain ⟨rfl, _⟩ | ⟨value, rfl⟩ := (h.endsName_back htext).mp hend
  case inr => exact absurd hback (hvalue value)
  have hhead : (follow p.stopch p.eqch fs tail).head? ≠ some p.eqch := by
    cases fs with
    | nil => simp [follow, hlast.resolve_left fun hnil => hnil rfl]
    | cons g fs => simp [follow, h.ne]
  have harg := arg_eq_none (p := p) (u := front ++ front') (by rw [h.opts_cons, htext]; simp) hhead
  have hvalues : lookupValue p.eqch p.opt front.length (f :: fs)
      = lookupValue p.eqch p.opt (front ++ f.text p.eqch ++ [p.stopch]).length fs :=
    lookupValue_of_name_ne hname front p.stopch
  constructor
  · rintro ⟨r, hr, hsome, hbind⟩
    rw [hr.unique hresult, lookup_of_name_ne hname, Option.isSome_some] at hsome
    obtain ⟨g, hg⟩ := Option.isSome_iff_exists.mp hsome.symm
    rw [hr.unique hresult, Option.bind_some, harg, hvalues] at hbind
    exact ⟨g, hg, lookup_of_lookupValue hbind.symm hg⟩
  · rintro ⟨g, hg, hnone⟩
    refine ⟨_, hresult, ?_, ?_⟩
    · rw [lookup_of_name_ne hname, hg]
      rfl
    · rw [Option.bind_some, harg, hvalues, lookupValue_eq_none _ hg hnone]

/-- The search goes on behind a field in which nothing is taken for the name. -/
theorem InFields.agrees_iff_of_other (h : p.InFields first front (f :: fs) tail)
    (hname : f.name ≠ p.opt)
    (hvalue : ∀ value, ¬ Doubled p.opt (f.text p.eqch) (p.eqch :: value))
    (hend : fs ≠ [] ∨ tail = [] → ¬ Doubled p.opt (f.text p.eqch) []) :
  p.Agrees front (f :: fs) ↔ (fs ≠ [] → p.Agrees (front ++ f.text p.eqch ++ [p.stopch]) fs)
  := by
  have hgo {r : Option ℕ} (hnone : fs = [] → r = none)
      (hr : fs ≠ [] → p.Result (front ++ f.text p.eqch ++ [p.stopch]).length r) :
      p.Result front.length r := by
    apply (h.inField hname).result_other
    · intro back hdoubled hends
      obtain ⟨blocks, hne, hblocks, htext⟩ := hdoubled
      obtain ⟨rfl, hlast⟩ | ⟨value, rfl⟩ := (h.endsName_back htext).mp hends
      · apply hend hlast ⟨blocks, hne, hblocks, htext⟩
      · apply hvalue value ⟨blocks, hne, hblocks, htext⟩
    · intro done rest htext hrest
      apply h.result_rest htext hrest hnone hr
  cases fs with
  | nil =>
    simp only [ne_eq, not_true_eq_false, false_imp_iff, iff_true]
    refine ⟨none, hgo (fun _ => rfl) (absurd rfl), ?_, ?_⟩
    · rw [lookup_of_name_ne hname]
      rfl
    · rw [lookupValue, if_neg hname]
      rfl
  | cons g fs =>
    rw [Agrees, Agrees, lookup_of_name_ne hname, lookupValue_of_name_ne hname front p.stopch]
    constructor
    · rintro ⟨r, hr, hsome, hbind⟩ _
      obtain ⟨r', hr'⟩ := exists_result h.opt (front ++ f.text p.eqch ++ [p.stopch]).length
      obtain rfl := hr.unique (hgo (absurd · (List.cons_ne_nil _ _)) (fun _ => hr'))
      exact ⟨r, hr', hsome, hbind⟩
    · intro hrest
      obtain ⟨r, hr, hsome, hbind⟩ := hrest (List.cons_ne_nil _ _)
      exact ⟨r, hgo (absurd · (List.cons_ne_nil _ _)) (fun _ => hr), hsome, hbind⟩

/-- The search answers like the fields if and only if it goes right. -/
theorem InFields.agrees_iff (h : p.InFields first front fs tail) :
  p.Agrees front fs ↔ Right p.stopch p.eqch tail p.opt first fs
  := by
  induction fs generalizing first front with
  | nil =>
    apply iff_of_true _ (.nil first)
    refine ⟨none, ?_, rfl, rfl⟩
    apply result_end (u := []) h.opts h.opt
    · obtain htail | ⟨c, rest, htail, _, _, hc⟩ := h.tail
      · left
        apply htail
      · right
        exact ⟨c, rest, htail, hc⟩
    · rw [List.infix_nil]
      apply h.opt
    · apply h.maxlen
  | cons f fs ih =>
    by_cases hname : f.name = p.opt
    · rw [h.agrees_here hname]
      constructor
      · apply Right.here hname
      · intro hright
        cases hright with
        | here _ hlast => apply hlast
        | other hne => exact absurd hname hne
        | lucky hne => exact absurd hname hne
    by_cases hvalue : ∃ value, Doubled p.opt (f.text p.eqch) (p.eqch :: value)
    · obtain ⟨value, hvalue⟩ := hvalue
      apply iff_of_false (h.not_agrees_of_value hname hvalue)
      intro hright
      cases hright with
      | here hname' => exact absurd hname' hname
      | other _ hvalue' => apply hvalue' value hvalue
      | lucky _ hvalue' => apply hvalue' value hvalue
    rw [not_exists] at hvalue
    by_cases hend : (fs ≠ [] ∨ tail = []) ∧ Doubled p.opt (f.text p.eqch) []
    · rw [h.agrees_iff_of_end hname hvalue hend.2 hend.1]
      constructor
      · rintro ⟨g, hg, hnone⟩
        apply Right.lucky hname hvalue hend.2 hg hnone
      · intro hright
        cases hright with
        | here hname' => exact absurd hname' hname
        | other _ _ hend' => exact absurd hend.2 (hend' hend.1)
        | lucky _ _ _ hg hnone => exact ⟨_, hg, hnone⟩
    · rw [not_and] at hend
      rw [h.agrees_iff_of_other hname hvalue hend]
      have hrest : (fs ≠ [] → p.Agrees (front ++ f.text p.eqch ++ [p.stopch]) fs)
          ↔ Right p.stopch p.eqch tail p.opt false fs := by
        cases fs with
        | nil => simp [Right.nil]
        | cons g fs =>
          rw [ih (h.rest (List.cons_ne_nil _ _))]
          simp
      rw [hrest]
      constructor
      · apply Right.other hname hvalue hend
      · intro hright
        cases hright with
        | here hname' => exact absurd hname' hname
        | other _ _ _ hrest => apply hrest
        | lucky _ _ hend' hg =>
          apply absurd hend' (hend (.inl ?_))
          rintro rfl
          cases hg

end Level

theorem hwconfigParse_mono {fuel fuel' : ℕ} (hle : fuel ≤ fuel') {r : Option ℕ}
    (h : p.hwconfigParse fuel = some r) :
  p.hwconfigParse fuel' = some r
  := by
  obtain ⟨e, he, rfl⟩ := Option.map_eq_some_iff.mp h
  rw [hwconfigParse, Walk.run_mono hle he, Option.map_some]

theorem hwconfigParseArg_mono {fuel fuel' : ℕ} (hle : fuel ≤ fuel') {r : Option (ℕ × ℕ)}
    (h : p.hwconfigParseArg fuel = some r) :
  p.hwconfigParseArg fuel' = some r
  := by
  obtain ⟨str, hstr, rfl⟩ := Option.map_eq_some_iff.mp h
  rw [hwconfigParseArg, hwconfigParse_mono hle hstr, Option.map_some]

theorem hwconfigParseArg_unique {fuel fuel' : ℕ} {r r' : Option (ℕ × ℕ)}
    (h : p.hwconfigParseArg fuel = some r) (h' : p.hwconfigParseArg fuel' = some r') :
  r = r'
  := by
  have hmax := hwconfigParseArg_mono (le_max_left fuel fuel') h
  rw [hwconfigParseArg_mono (le_max_right fuel fuel') h', Option.some.injEq] at hmax
  rw [hmax]

/-- Both ways to call `hwconfig_parse`. -/
theorem agrees_nil_iff {fs : List Field} :
  p.Agrees [] fs ↔ (∃ fuel, (p.hwconfigParse fuel).map Option.isSome
      = some (lookup p.opt fs).isSome)
    ∧ ∃ fuel, p.hwconfigParseArg fuel = some (lookupValue p.eqch p.opt 0 fs)
  := by
  constructor
  · rintro ⟨r, ⟨fuel, hr⟩, hsome, hbind⟩
    constructor
    · use fuel
      rw [hwconfigParse, List.length_nil] at *
      rw [hr, Option.map_some, hsome]
    · use fuel
      rw [hwconfigParseArg, hwconfigParse, List.length_nil] at *
      rw [hr, Option.map_some, hbind]
  · rintro ⟨⟨fuel, hsome⟩, fuel', hbind⟩
    obtain ⟨r, hr, hsome⟩ := Option.map_eq_some_iff.mp hsome
    obtain ⟨r', hr', hbind⟩ := Option.map_eq_some_iff.mp hbind
    have heq : r = r' := Result.unique (p := p) (o := 0) ⟨fuel, hr⟩ ⟨fuel', hr'⟩
    exact ⟨r, ⟨fuel, hr⟩, hsome, heq ▸ hbind⟩

end Search

/-! ### The grammar -/

section Grammar

variable {eqch : Byte} {name : List Byte} {fs : List Field}

/-- The value of a name is in the text. -/
theorem take_of_lookupValue (stopch : Byte) (front tail : List Byte) {found : ℕ × ℕ}
    (h : lookupValue eqch name front.length fs = some found) :
  ∃ f value, lookup name fs = some f ∧ f.value = some value ∧ found.2 = value.length
    ∧ ((front ++ (joined stopch eqch fs ++ tail)).drop found.1).take found.2 = value
  := by
  induction fs generalizing front with
  | nil => cases h
  | cons f fs ih =>
    by_cases hname : f.name = name
    · rw [lookupValue, if_pos hname] at h
      obtain ⟨value, hvalue, rfl⟩ := Option.map_eq_some_iff.mp h
      refine ⟨f, value, List.find?_cons_of_pos (by simpa using hname), hvalue, rfl, ?_⟩
      have htext : front ++ (joined stopch eqch (f :: fs) ++ tail)
          = (front ++ name ++ [eqch]) ++ (value ++ Search.follow stopch eqch fs tail) := by
        rw [Search.joined_append, Field.text, hname, hvalue]
        simp
      rw [htext, List.drop_left' (by simp; omega), List.take_left]
    · rw [Search.lookupValue_of_name_ne hname front stopch] at h
      obtain ⟨g, value, hg, hvalue, hlen, htake⟩ := ih _ h
      refine ⟨g, value, ?_, hvalue, hlen, ?_⟩
      · rwa [Search.lookup_of_name_ne hname]
      · cases fs with
        | nil => cases hg
        | cons g' fs =>
          rw [← htake, Search.joined_append, Search.follow]
          · simp
          · nofun

theorem lookupValue_add (o k : ℕ) :
  lookupValue eqch name (o + k) fs
    = (lookupValue eqch name k fs).map fun found => (o + found.1, found.2)
  := by
  induction fs generalizing k with
  | nil => rfl
  | cons f fs ih =>
    rw [lookupValue, lookupValue]
    split_ifs
    · cases f.value with
      | none => rfl
      | some value => simp [Nat.add_assoc]
    · rw [← ih]
      congr 1
      omega

end Grammar

section Options

variable {opt : List Byte} {before after opts : List Opt} {o : Opt}

theorem IsName.notMem {name : List Byte} (h : IsName name) :
  semicolon ∉ name ∧ colon ∉ name ∧ comma ∉ name ∧ equals ∉ name
  := by
  refine ⟨?_, ?_, ?_, ?_⟩
  all_goals
    intro hmem
    have hne := h.2 _ hmem
    simp at hne

/-- A suboption has no separators but an equals sign behind its name. -/
theorem notMem_sub (sub : Sub) :
  equals ∉ sub.name ∧ comma ∉ sub.toField.text equals ∧ semicolon ∉ sub.toField.text equals
  := by
  obtain ⟨hsemicolon, _, hcomma, hequals⟩ := sub.isName.notMem
  have hvalue := sub.isValue
  rw [Field.text, List.mem_append, List.mem_append]
  cases hv : sub.value with
  | none => simp [hsemicolon, hcomma, hequals]
  | some value =>
    have hcomma' : comma ∉ value := fun hmem => (hvalue value hv comma hmem).2.2 rfl
    have hsemicolon' : semicolon ∉ value := fun hmem => (hvalue value hv semicolon hmem).2.1 rfl
    have hne : comma ≠ equals ∧ semicolon ≠ equals := by decide
    simp [hsemicolon, hcomma, hequals, hcomma', hsemicolon', hne]

theorem notMem_joined {c stopch eqch : Byte} {fs : List Field} (hc : c ≠ stopch)
    (h : ∀ f ∈ fs, c ∉ f.text eqch) :
  c ∉ joined stopch eqch fs
  := by
  induction fs with
  | nil => exact List.not_mem_nil
  | cons f fs ih =>
    have htext := h f List.mem_cons_self
    cases fs with
    | nil => apply htext
    | cons g fs =>
      rw [joined, List.mem_append, List.mem_cons, not_or, not_or]
      · refine ⟨htext, hc, ih ?_⟩
        intro f' hf'
        apply h f' (List.mem_cons_of_mem _ hf')
      · nofun

theorem notMem_opt (o : Opt) :
  colon ∉ o.field.name ∧ semicolon ∉ o.field.text colon
  := by
  obtain ⟨hsemicolon, hcolon, _⟩ := o.isName.notMem
  refine ⟨hcolon, ?_⟩
  have hjoined : semicolon ∉ joined comma equals o.fields := by
    apply notMem_joined (by decide)
    intro f hf
    obtain ⟨sub, _, rfl⟩ := List.mem_map.mp hf
    apply (notMem_sub sub).2.2
  rw [Field.text, Opt.field, List.mem_append]
  by_cases hsubs : o.subs = []
  · simp [hsubs, hsemicolon]
  · simp [hsubs, hsemicolon, hjoined, show semicolon ≠ colon by decide]

theorem inFields_opt (cfg : Config) (hopt : IsName opt) :
  (searchOpt cfg.text opt).InFields true [] (cfg.opts.map Opt.field) []
  := by
  obtain ⟨hsemicolon, hcolon, _⟩ := hopt.notMem
  constructor
  case opts => exact (List.append_nil _).symm
  case maxlen => exact (Nat.zero_add _).symm
  case opt => apply hopt.1
  case stopch => apply hsemicolon
  case eqch => apply hcolon
  case ne => exact show semicolon ≠ colon by decide
  case fields =>
    intro f hf
    obtain ⟨o, _, rfl⟩ := List.mem_map.mp hf
    apply notMem_opt
  case tail =>
    left
    rfl
  case first => exact iff_of_true rfl rfl
  case size => apply cfg.length_lt

theorem optsText_cons (o : Opt) (opts : List Opt) :
  optsText (o :: opts) = o.field.text colon ++ behind opts
  := by
  cases opts with
  | nil => exact (List.append_nil _).symm
  | cons o' opts => rfl

/-- The argument of an option is in the text, and the other options are behind it. -/
theorem lookupValue_of_opts (front : List Byte) (hopts : opts = before ++ o :: after)
    (hbefore : ∀ o' ∈ before, o'.name ≠ opt) (hname : o.name = opt) (hsubs : o.subs ≠ []) :
  ∃ a, lookupValue colon opt front.length (opts.map Opt.field)
      = some (a, (joined comma equals o.fields).length)
    ∧ (front ++ optsText opts).drop a = joined comma equals o.fields ++ behind after
  := by
  subst hopts
  induction before generalizing front with
  | nil =>
    refine ⟨front.length + opt.length + 1, ?_, ?_⟩
    · rw [List.nil_append, List.map_cons, lookupValue, if_pos (show o.field.name = opt from hname),
        Opt.field]
      simp [hsubs]
    · have htext : front ++ optsText ([] ++ o :: after)
          = (front ++ opt ++ [colon]) ++ (joined comma equals o.fields ++ behind after) := by
        rw [List.nil_append, optsText_cons, Field.text, Opt.field, hname]
        simp [hsubs]
      rw [htext, List.drop_left' (by simp; omega)]
  | cons o' before ih =>
    rw [List.forall_mem_cons] at hbefore
    obtain ⟨a, ha, hdrop⟩ := ih (front ++ o'.field.text colon ++ [semicolon]) hbefore.2
    refine ⟨a, ?_, ?_⟩
    · rw [List.cons_append, List.map_cons, Search.lookupValue_of_name_ne hbefore.1 front semicolon]
      apply ha
    · rw [← hdrop, List.cons_append, optsText_cons]
      cases hrest : before ++ o :: after with
      | nil => simp at hrest
      | cons o'' rest => simp [behind]

theorem inFields_sub {s : List Byte} {a : ℕ} {subopt : List Byte} (hsubopt : IsName subopt)
    (hsize : s.length < 2 ^ 32)
    (hdrop : s.drop a = joined comma equals o.fields ++ behind after) :
  (searchSub s (a, (joined comma equals o.fields).length) subopt).InFields true [] o.fields
    (behind after)
  := by
  obtain ⟨hsemicolon, _, hcomma, hequals⟩ := hsubopt.notMem
  constructor
  case opts => apply hdrop
  case maxlen => exact (Nat.zero_add _).symm
  case opt => apply hsubopt.1
  case stopch => apply hcomma
  case eqch => apply hequals
  case ne => exact show comma ≠ equals by decide
  case fields =>
    intro f hf
    obtain ⟨sub, _, rfl⟩ := List.mem_map.mp hf
    exact ⟨(notMem_sub sub).1, (notMem_sub sub).2.1⟩
  case tail =>
    cases after with
    | nil =>
      left
      rfl
    | cons o' after =>
      right
      refine ⟨semicolon, _, rfl, ?_, ?_, hsemicolon⟩
      · exact show semicolon ≠ comma by decide
      · exact show semicolon ≠ equals by decide
  case first => exact iff_of_true rfl rfl
  case size =>
    apply lt_of_le_of_lt _ hsize
    rw [searchSub, List.length_drop]
    omega

/-- The first option with a name. -/
theorem find_eq_some_iff (cfg : Config) :
  cfg.find opt = some o ↔ o.name = opt
    ∧ ∃ before after, cfg.opts = before ++ o :: after ∧ ∀ o' ∈ before, o'.name ≠ opt
  := by
  simp [Config.find, List.find?_eq_some_iff_append]

theorem lookup_field (cfg : Config) :
  lookup opt (cfg.opts.map Opt.field) = (cfg.find opt).map Opt.field
  := List.find?_map

end Options

/-! ### The answers -/

section Answers

variable {cfg : Config} {opt subopt : List Byte} {strings : Strings}

theorem hwconfig_eq (h : strings.chosen = some cfg.text) (fuel : ℕ) :
  hwconfig strings opt fuel = ((searchOpt cfg.text opt).hwconfigParse fuel).map Option.isSome
  := by
  rw [hwconfig, h]

theorem hwconfigArg_eq (h : strings.chosen = some cfg.text) (fuel : ℕ) :
  hwconfigArg strings opt fuel = (searchOpt cfg.text opt).hwconfigParseArg fuel
  := by
  rw [hwconfigArg, h]

/-- The functions for options answer like the grammar if the search goes right. -/
theorem agrees_opt_iff (h : strings.chosen = some cfg.text) (hopt : IsName opt) :
  Right semicolon colon [] opt true (cfg.opts.map Opt.field)
    ↔ (∃ fuel, hwconfig strings opt fuel = some (cfg.has opt))
      ∧ ∃ fuel, hwconfigArg strings opt fuel = some (cfg.arg opt)
  := by
  have hright := (inFields_opt cfg hopt).agrees_iff
  rw [Search.agrees_nil_iff, searchOpt, lookup_field, Option.isSome_map] at hright
  simp only [hwconfig_eq h, hwconfigArg_eq h]
  apply hright.symm

/-- The functions for suboptions answer like the grammar if the search goes right. -/
theorem agrees_sub_iff (hsubopt : IsName subopt) {before after : List Opt} {o : Opt}
    (hopts : cfg.opts = before ++ o :: after) (hbefore : ∀ o' ∈ before, o'.name ≠ opt)
    (hname : o.name = opt) (hsubs : o.subs ≠ []) :
  Right comma equals (behind after) subopt true o.fields
    ↔ ∃ arg, cfg.arg opt = some arg
      ∧ (∃ fuel, ((searchSub cfg.text arg subopt).hwconfigParse fuel).map Option.isSome
        = some (cfg.hasSub opt subopt))
      ∧ ∃ fuel, ((searchSub cfg.text arg subopt).hwconfigParseArg fuel).map
          (Option.map fun found => (arg.1 + found.1, found.2))
        = some (cfg.subarg opt subopt)
  := by
  obtain ⟨a, ha, hdrop⟩ := lookupValue_of_opts [] hopts hbefore hname hsubs
  rw [List.nil_append] at hdrop
  have hfind : cfg.find opt = some o :=
    (find_eq_some_iff cfg).mpr ⟨hname, before, after, hopts, hbefore⟩
  have hright := (inFields_sub hsubopt cfg.length_lt hdrop).agrees_iff
  rw [Search.agrees_nil_iff] at hright
  have harg : cfg.arg opt = some (a, (joined comma equals o.fields).length) := ha
  have hsub : cfg.hasSub opt subopt = (lookup subopt o.fields).isSome := by
    rw [Config.hasSub, hfind, Option.bind_some]
  have hsubarg : cfg.subarg opt subopt
      = (lookupValue equals subopt 0 o.fields).map fun found => (a + found.1, found.2) := by
    rw [Config.subarg, harg, hfind, Option.bind_some, Option.bind_some, ← lookupValue_add,
      Nat.add_zero]
  have hshift : Function.Injective
      (Option.map fun found : ℕ × ℕ => (a + found.1, found.2)) := by
    apply Option.map_injective
    rintro ⟨o₁, len₁⟩ ⟨o₂, len₂⟩ heq
    simpa using heq
  simp only [harg, Option.some.injEq, exists_eq_left', hsub, hsubarg]
  apply hright.symm.trans
  apply and_congr_right
  intro _
  apply exists_congr
  intro fuel
  exact ((Option.map_injective hshift).eq_iff
    (b := some (lookupValue equals subopt 0 o.fields))).symm

/-- An argument is the one of an option with suboptions. -/
theorem exists_opt {found : ℕ × ℕ} (h : cfg.arg opt = some found) :
  ∃ before o after, cfg.opts = before ++ o :: after ∧ (∀ o' ∈ before, o'.name ≠ opt)
    ∧ o.name = opt ∧ o.subs ≠ []
  := by
  obtain ⟨f, value, hlookup, hvalue, _⟩ :=
    take_of_lookupValue semicolon [] [] h
  rw [lookup_field] at hlookup
  obtain ⟨o, ho, rfl⟩ := Option.map_eq_some_iff.mp hlookup
  obtain ⟨hname, before, after, hopts, hbefore⟩ := (find_eq_some_iff cfg).mp ho
  refine ⟨before, o, after, hopts, hbefore, hname, ?_⟩
  intro hsubs
  simp [Opt.field, hsubs] at hvalue

/-- What is compared is the text of the argument. -/
theorem compareArg_arg (h : strings.chosen = some cfg.text) (arg : List Byte) :
  compareArg strings arg (cfg.arg opt) = cfg.argCmp opt arg
  := by
  rw [Config.argCmp]
  cases hfound : cfg.arg opt with
  | none =>
    have hvalue : ((cfg.find opt).bind fun o => o.field.value) = none := by
      rw [Option.bind_eq_none_iff]
      intro o ho
      apply Search.lookup_of_lookupValue hfound
      rw [lookup_field, ho, Option.map_some]
    simp [compareArg, hvalue]
  | some found =>
    obtain ⟨f, value, hlookup, hvalue, hlen, htake⟩ :=
      take_of_lookupValue semicolon [] [] hfound
    rw [List.nil_append, List.append_nil] at htake
    rw [lookup_field] at hlookup
    obtain ⟨o, ho, rfl⟩ := Option.map_eq_some_iff.mp hlookup
    have htext : argText strings found = value := by
      rw [argText, h]
      apply htake
    rw [compareArg, htext, hlen, ho, Option.bind_some, hvalue]
    simp only [Option.some.injEq, decide_eq_decide]
    constructor
    · apply And.right
    · rintro rfl
      exact ⟨rfl, rfl⟩

/-- What is compared is the text of the value of the suboption. -/
theorem compareArg_subarg (h : strings.chosen = some cfg.text) (subarg : List Byte) :
  compareArg strings subarg (cfg.subarg opt subopt) = cfg.subargCmp opt subopt subarg
  := by
  rw [Config.subargCmp]
  cases hfound : cfg.arg opt with
  | none =>
    have hvalue : ((cfg.find opt).bind fun o => (lookup subopt o.fields).bind Field.value)
        = none := by
      rw [Option.bind_eq_none_iff]
      intro o ho
      have hnone : o.field.value = none := by
        apply Search.lookup_of_lookupValue hfound
        rw [lookup_field, ho, Option.map_some]
      have hsubs : o.subs = [] := by
        by_contra hsubs
        simp [Opt.field, hsubs] at hnone
      rw [Opt.fields, hsubs]
      rfl
    simp [Config.subarg, hfound, compareArg, hvalue]
  | some arg =>
    obtain ⟨before, o, after, hopts, hbefore, hname, hsubs⟩ := exists_opt hfound
    have ho : cfg.find opt = some o :=
      (find_eq_some_iff cfg).mpr ⟨hname, before, after, hopts, hbefore⟩
    obtain ⟨a, ha, hdrop⟩ := lookupValue_of_opts [] hopts hbefore hname hsubs
    obtain rfl := Option.some.inj (hfound.symm.trans ha)
    rw [Config.subarg, hfound, ho, Option.bind_some, Option.bind_some, Option.bind_some,
      show a = a + 0 from rfl, lookupValue_add]
    cases hsub : lookupValue equals subopt 0 o.fields with
    | none =>
      have hvalue : (lookup subopt o.fields).bind Field.value = none := by
        rw [Option.bind_eq_none_iff]
        intro f hf
        apply Search.lookup_of_lookupValue hsub hf
      simp [compareArg, hvalue]
    | some found =>
      obtain ⟨f, value, hlookup, hvalue, hlen, htake⟩ :=
        take_of_lookupValue comma [] (behind after) hsub
      have htext : argText strings (a + found.1, found.2) = value := by
        rw [List.nil_append, ← hdrop, List.drop_drop] at htake
        rw [argText, h]
        apply htake
      rw [Option.map_some, compareArg, htext, hlen, hlookup, Option.bind_some, hvalue]
      simp only [Option.some.injEq, decide_eq_decide]
      constructor
      · apply And.right
      · rintro rfl
        exact ⟨rfl, rfl⟩

theorem hwconfigSub_of_arg {fuel : ℕ} {arg : ℕ × ℕ} (h : strings.chosen = some cfg.text)
    (harg : hwconfigArg strings opt fuel = some (some arg)) :
  hwconfigSub strings opt subopt fuel
    = ((searchSub cfg.text arg subopt).hwconfigParse fuel).map Option.isSome
  := by
  rw [hwconfigSub, harg, Option.bind_some, h]
  rfl

theorem hwconfigSubarg_of_arg {fuel : ℕ} {arg : ℕ × ℕ} (h : strings.chosen = some cfg.text)
    (harg : hwconfigArg strings opt fuel = some (some arg)) :
  hwconfigSubarg strings opt subopt fuel
    = ((searchSub cfg.text arg subopt).hwconfigParseArg fuel).map
      (Option.map fun found => (arg.1 + found.1, found.2))
  := by
  rw [hwconfigSubarg, harg, Option.bind_some, h]
  simp only [Option.getD_some]
  congr 1
  funext found
  cases found
  all_goals rfl

theorem hwconfigArg_mono {fuel fuel' : ℕ} (hle : fuel ≤ fuel') {r : Option (ℕ × ℕ)}
    (h : strings.chosen = some cfg.text) (harg : hwconfigArg strings opt fuel = some r) :
  hwconfigArg strings opt fuel' = some r
  := by
  rw [hwconfigArg_eq h] at harg ⊢
  apply Search.hwconfigParseArg_mono hle harg

theorem hwconfigArg_unique {fuel fuel' : ℕ} {r r' : Option (ℕ × ℕ)}
    (h : strings.chosen = some cfg.text) (hr : hwconfigArg strings opt fuel = some r)
    (hr' : hwconfigArg strings opt fuel' = some r') :
  r = r'
  := by
  rw [hwconfigArg_eq h] at hr hr'
  apply Search.hwconfigParseArg_unique hr hr'

section Argument

variable {arg : ℕ × ℕ} {fuel : ℕ}

/-- The search for a suboption in the argument of an option. -/
theorem exists_sub_iff (h : strings.chosen = some cfg.text)
    (harg : hwconfigArg strings opt fuel = some (some arg)) (b : Bool) :
  (∃ fuel, hwconfigSub strings opt subopt fuel = some b)
    ↔ ∃ fuel, ((searchSub cfg.text arg subopt).hwconfigParse fuel).map Option.isSome = some b
  := by
  constructor
  · rintro ⟨fuel', hsub⟩
    have hsub' := hsub
    obtain ⟨r, hr, _⟩ := Option.bind_eq_some_iff.mp hsub'
    obtain rfl := hwconfigArg_unique h hr harg
    rw [hwconfigSub_of_arg h hr] at hsub
    exact ⟨fuel', hsub⟩
  · rintro ⟨fuel', hsub⟩
    obtain ⟨r, hr, hb⟩ := Option.map_eq_some_iff.mp hsub
    use max fuel fuel'
    rw [hwconfigSub_of_arg h (hwconfigArg_mono (le_max_left fuel fuel') h harg),
      Search.hwconfigParse_mono (le_max_right fuel fuel') hr, Option.map_some, hb]

/-- The search for the value of a suboption in the argument of an option. -/
theorem exists_subarg_iff (h : strings.chosen = some cfg.text)
    (harg : hwconfigArg strings opt fuel = some (some arg)) (value : Option (ℕ × ℕ)) :
  (∃ fuel, hwconfigSubarg strings opt subopt fuel = some value)
    ↔ ∃ fuel, ((searchSub cfg.text arg subopt).hwconfigParseArg fuel).map
        (Option.map fun found => (arg.1 + found.1, found.2)) = some value
  := by
  constructor
  · rintro ⟨fuel', hsub⟩
    have hsub' := hsub
    obtain ⟨r, hr, _⟩ := Option.bind_eq_some_iff.mp hsub'
    obtain rfl := hwconfigArg_unique h hr harg
    rw [hwconfigSubarg_of_arg h hr] at hsub
    exact ⟨fuel', hsub⟩
  · rintro ⟨fuel', hsub⟩
    obtain ⟨r, hr, hb⟩ := Option.map_eq_some_iff.mp hsub
    use max fuel fuel'
    rw [hwconfigSubarg_of_arg h (hwconfigArg_mono (le_max_left fuel fuel') h harg),
      Search.hwconfigParseArg_mono (le_max_right fuel fuel') hr, Option.map_some, hb]

end Argument

/-- There are no suboptions if the option has no argument. -/
theorem sub_of_none (h : cfg.arg opt = none) (subopt : List Byte) :
  cfg.hasSub opt subopt = false ∧ cfg.subarg opt subopt = none
  := by
  constructor
  · rw [Config.hasSub]
    cases ho : cfg.find opt with
    | none => rfl
    | some o =>
      have hnone : o.field.value = none := by
        apply Search.lookup_of_lookupValue h
        rw [lookup_field, ho, Option.map_some]
      have hsubs : o.subs = [] := by
        by_contra hsubs
        simp [Opt.field, hsubs] at hnone
      rw [Option.bind_some, Opt.fields, hsubs]
      rfl
  · rw [Config.subarg, h, Option.bind_none]

/-- The functions for suboptions answer like the grammar if the search goes right. -/
theorem subs_right_iff (h : strings.chosen = some cfg.text) (hsubopt : IsName subopt) {fuel : ℕ}
    (hfuel : hwconfigArg strings opt fuel = some (cfg.arg opt)) :
  (∀ before o after, cfg.opts = before ++ o :: after → (∀ o' ∈ before, o'.name ≠ opt) →
    o.name = opt → o.subs ≠ [] → Right comma equals (behind after) subopt true o.fields)
    ↔ (∃ fuel, hwconfigSub strings opt subopt fuel = some (cfg.hasSub opt subopt))
      ∧ ∃ fuel, hwconfigSubarg strings opt subopt fuel = some (cfg.subarg opt subopt)
  := by
  cases harg : cfg.arg opt with
  | none =>
    rw [harg] at hfuel
    obtain ⟨hsub, hsubarg⟩ := sub_of_none harg subopt
    apply iff_of_true
    · intro before o after hopts hbefore hname hsubs
      obtain ⟨a, ha, _⟩ := lookupValue_of_opts [] hopts hbefore hname hsubs
      cases harg.symm.trans ha
    · constructor
      · use fuel
        rw [hwconfigSub, hfuel, Option.bind_some, hsub]
      · use fuel
        rw [hwconfigSubarg, hfuel, Option.bind_some, hsubarg]
  | some arg =>
    rw [harg] at hfuel
    rw [exists_sub_iff h hfuel, exists_subarg_iff h hfuel]
    constructor
    · intro hright
      obtain ⟨before, o, after, hopts, hbefore, hname, hsubs⟩ := exists_opt harg
      obtain ⟨arg', harg', hsub⟩ := (agrees_sub_iff hsubopt hopts hbefore hname hsubs).mp
        (hright before o after hopts hbefore hname hsubs)
      obtain rfl := Option.some.inj (harg.symm.trans harg')
      apply hsub
    · intro hsub before o after hopts hbefore hname hsubs
      rw [agrees_sub_iff hsubopt hopts hbefore hname hsubs]
      exact ⟨arg, harg, hsub⟩

/-- The functions answer like the grammar if and only if the searches go right. -/
theorem answers_iff (cfg : Config) (opt subopt : {name // IsName name}) :
  (∀ strings : Strings, strings.chosen = some cfg.text → Answers cfg opt subopt strings)
    ↔ Handled cfg opt subopt
  := by
  constructor
  · intro h
    have hchosen : Strings.chosen ⟨some cfg.text, none, none⟩ = some cfg.text := rfl
    have hanswers := h _ hchosen
    obtain ⟨fuel, hfuel⟩ := hanswers.arg
    constructor
    · exact (agrees_opt_iff hchosen opt.2).mpr ⟨hanswers.hwconfig, hanswers.arg⟩
    · exact (subs_right_iff hchosen subopt.2 hfuel).mpr ⟨hanswers.sub, hanswers.subarg⟩
  · rintro ⟨hright, hsubs⟩ strings hchosen
    obtain ⟨hhwconfig, fuel, hfuel⟩ := (agrees_opt_iff hchosen opt.2).mp hright
    obtain ⟨hsub, fuel', hfuel'⟩ := (subs_right_iff hchosen subopt.2 hfuel).mp hsubs
    constructor
    case hwconfig => apply hhwconfig
    case arg => exact ⟨fuel, hfuel⟩
    case argCmp =>
      intro arg
      use fuel
      rw [hwconfigArgCmp, hfuel, Option.map_some, compareArg_arg hchosen]
    case sub => apply hsub
    case subarg => exact ⟨fuel', hfuel'⟩
    case subargCmp =>
      intro subarg
      use fuel'
      rw [hwconfigSubargCmp, hfuel', Option.map_some, compareArg_subarg hchosen]

/-- A name of one letter. -/
def letter (b : Byte) (h : b ≠ 0 ∧ b ≠ semicolon ∧ b ≠ colon ∧ b ≠ comma ∧ b ≠ equals) :
    {name // IsName name} :=
  ⟨[b], List.cons_ne_nil _ _, fun c hc => by rwa [List.mem_singleton.mp hc]⟩

/-- The options `a:x;b`. -/
def twoOpts : Config where
  opts := [⟨ascii "a", [⟨⟨ascii "x", none⟩, (letter 0x78 (by decide)).2, nofun⟩],
      (letter 0x61 (by decide)).2⟩,
    ⟨ascii "b", [], (letter 0x62 (by decide)).2⟩]
  length_lt := by decide

/-- The last suboption of an option that is not the last one is not found. -/
theorem not_answers_last :
  ¬ ∀ (cfg : Config) (opt subopt : {name // IsName name}) (strings : Strings),
    strings.chosen = some cfg.text → Answers cfg opt subopt strings
  := by
  intro h
  have hchosen : Strings.chosen ⟨some twoOpts.text, none, none⟩ = some twoOpts.text := rfl
  have hanswers := h twoOpts (letter 0x61 (by decide)) (letter 0x78 (by decide)) _ hchosen
  obtain ⟨fuel, hfuel⟩ := hanswers.arg
  have hright := (subs_right_iff hchosen (letter 0x78 (by decide)).2 hfuel).mpr
    ⟨hanswers.sub, hanswers.subarg⟩
  cases hright [] _ _ rfl nofun rfl (List.cons_ne_nil _ _) with
  | here _ hlast => simp [behind] at hlast
  | other hname => apply hname rfl
  | lucky hname => apply hname rfl

end Answers

end Hwconfig
