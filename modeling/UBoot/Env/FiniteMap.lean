import UBoot.Env.Setenv

/-!
# The environment as a finite map

What each part of `_do_setenv` does to the entries of a well-formed area, and from that
what a whole call does (`doSetenv_effect`): it leaves the area alone, it deletes the
variable, it replaces it by its new definition at the end, or it deletes the variable
and reports that the new definition does not fit.
-/

namespace Env

open Memory

variable {c : Config} {x : Devices} {flag : Word} {g : Globals}
variable {d : ℕ → Byte} {size : ℕ} {es : List Entry} {name : List Byte}
  {args : List (List Byte)}

/-! ### The search -/

/-- The search passes over the entries with other names. -/
theorem findVar_append (es₁ es₂ : List Entry) {n p : ℕ} (hname : IsName name)
    (h : Holds d p (flatten (es₁ ++ es₂) ++ [0])) (hsize : (flatten es₁).length ≤ size)
    (hne : ∀ e ∈ es₁, e.name ≠ name) :
  findVar d size name (n + es₁.length) p = findVar d size name n (p + (flatten es₁).length)
  := by
  induction es₁ generalizing p with
  | nil => rfl
  | cons e es₁ ih =>
    obtain ⟨h0, he, hes⟩ := holds_flatten_cons h
    simp only [flatten_cons, List.length_append, List.length_cons] at hsize
    have hend : strEnd d size p = some (p + e.bytes.length) :=
      strEnd_eq he e.isStr_bytes (by omega)
    have hmatch := envmatch_eq hname e.isName (holds_append.mp he).1
    rw [if_neg (hne e (by simp))] at hmatch
    have hrest := ih hes (by omega) fun e' he' => hne e' (List.mem_cons_of_mem e he')
    rw [List.length_cons, ← Nat.add_assoc, findVar, if_neg h0]
    simp only [hend, hmatch, Option.bind_eq_bind, Option.bind_some, hrest, flatten_cons,
      List.length_append, List.length_cons]
    congr 1
    omega

theorem findVar_none (h : WellFormed size d es) (hname : IsName name)
    (hne : ∀ e ∈ es, e.name ≠ name) :
  findVar d size name size 0 = some none
  := by
  have hf := h.holds_flatten
  have hlen := h.length_flatten
  have hes := length_lt_flatten es
  obtain ⟨n, hn⟩ : ∃ n, size = n + 1 + es.length := ⟨size - es.length - 1, by omega⟩
  have hstop := (holds_append.mp hf).2.1
  have hskip := findVar_append (n := n + 1) es [] hname (by simpa using hf) hlen.le hne
  rw [← hn] at hskip
  rw [hskip, findVar, if_pos hstop]

theorem findVar_some {es₁ es₂ : List Entry} {e : Entry}
    (h : WellFormed size d (es₁ ++ e :: es₂)) (hne : ∀ e' ∈ es₁, e'.name ≠ e.name) :
  ∃ oldval, findVar d size e.name size 0
    = some (some ⟨oldval, (flatten es₁).length, (flatten es₁).length + e.bytes.length⟩)
  := by
  have hf := h.holds_flatten
  have hlen := h.length_flatten
  have hes := length_lt_flatten (es₁ ++ e :: es₂)
  rw [flatten_append, List.append_assoc, holds_append, Nat.zero_add] at hf
  rw [flatten_append, flatten_cons] at hlen
  simp only [List.length_append, List.length_cons, flatten_append, flatten_cons] at hlen hes
  obtain ⟨n, hn⟩ : ∃ n, size = n + 1 + es₁.length := ⟨size - es₁.length - 1, by omega⟩
  obtain ⟨h0, he, -⟩ := holds_flatten_cons hf.2
  have hskip := findVar_append (n := n + 1) es₁ (e :: es₂) e.isName h.holds_flatten
    (by omega : (flatten es₁).length ≤ size) hne
  rw [← hn, Nat.zero_add, findVar, if_neg h0, strEnd_eq he e.isStr_bytes (by omega)] at hskip
  have hmatch := envmatch_eq e.isName e.isName (holds_append.mp he).1
  rw [if_pos rfl] at hmatch
  simp only [hmatch, Option.bind_eq_bind, Option.bind_some] at hskip
  exact ⟨_, hskip⟩

/-! ### The deletion -/

theorem length_encode_le {es₁ es₂ : List Entry} (e : Entry) :
  (encode (es₁ ++ es₂)).length ≤ (encode (es₁ ++ e :: es₂)).length
  := by
  have hpos := List.length_pos_iff.mpr e.bytes_ne_nil
  have hlen (es : List Entry) (hne : es ≠ []) : (encode es).length = (flatten es).length + 1 := by
    cases es with
    | nil => contradiction
    | cons e es => rw [encode, List.length_append, List.length_singleton]
  rw [hlen (es₁ ++ e :: es₂) (by simp), flatten_append, flatten_cons]
  by_cases hne : es₁ ++ es₂ = []
  · rw [hne, encode]
    simp only [List.length_append, List.length_cons, List.length_nil]
    omega
  · rw [hlen _ hne, flatten_append]
    simp only [List.length_append, List.length_cons]
    omega

/-- Deleting an entry leaves a well-formed area with the other entries, and no cell
outside the area changes. -/
theorem deleteVar_eq {es₁ es₂ : List Entry} {e : Entry}
    (h : WellFormed size d (es₁ ++ e :: es₂)) :
  ∃ d', deleteVar d size (flatten es₁).length ((flatten es₁).length + e.bytes.length) = some d'
    ∧ WellFormed size d' (es₁ ++ es₂) ∧ ∀ q, size ≤ q → d' q = d q
  := by
  have hf := h.holds_flatten
  have hlen := h.length_flatten
  have hpos := List.length_pos_iff.mpr e.bytes_ne_nil
  have hnodup : ((es₁ ++ es₂).map Entry.name).Nodup := by
    apply List.Nodup.sublist _ h.nodup
    simp
  have hfits := le_trans (length_encode_le e) h.fits
  cases es₂ with
  | nil =>
    -- the last entry: the final NUL stands behind its NUL
    have hnul : d ((flatten es₁).length + e.bytes.length + 1) = 0 := by
      simp only [flatten_append, flatten_cons, flatten_nil, List.append_assoc, List.cons_append,
        List.nil_append, holds_append, holds_cons, Nat.zero_add] at hf
      apply hf.2.2.2.1
    simp only [flatten_append, flatten_cons, flatten_nil, List.length_append, List.length_cons,
      List.length_nil] at hlen
    rw [List.append_nil] at hnodup hfits ⊢
    rw [deleteVar]
    simp only [hnul, if_true]
    cases es₁ with
    | nil =>
      refine ⟨_, rfl, ⟨hnodup, hfits, ?_⟩, ?_⟩
      · simp [encode]
      · intro q hq
        simp only [flatten_nil, List.length_nil] at hlen ⊢
        rw [Function.update_of_ne (by omega), Function.update_of_ne (by omega)]
    | cons e₁ es₁ =>
      have hpos₁ : 0 < (flatten (e₁ :: es₁)).length := by
        rw [flatten_cons, List.length_append, List.length_cons]
        omega
      rw [if_pos hpos₁]
      refine ⟨_, rfl, ⟨hnodup, hfits, ?_⟩, ?_⟩
      · apply holds_encode (by simp)
        rw [flatten_append, List.append_assoc, holds_append] at hf
        rw [holds_append, Nat.sub_add_cancel hpos₁]
        constructor
        · apply hf.1.congr
          intro q _ hq
          apply Function.update_of_ne
          omega
        · simp
      · intro q hq
        rw [Function.update_of_ne (by omega)]
  | cons e₂ es₂ =>
    have hnext : d ((flatten es₁).length + e.bytes.length + 1) ≠ 0 := by
      rw [flatten_append, List.append_assoc, holds_append, Nat.zero_add] at hf
      obtain ⟨-, -, hrest⟩ := holds_flatten_cons hf.2
      exact (holds_flatten_cons hrest).1
    simp only [flatten_append, flatten_cons, List.length_append, List.length_cons] at hlen
    obtain ⟨d', k, hshift, hholds, hframe⟩ :=
      shiftDown_flatten (n := size) (List.cons_ne_nil e₂ es₂) hf (by
        simp only [flatten_cons, List.length_append, List.length_cons]
        omega)
    refine ⟨Function.update d' (k + 1) 0, ?_, ⟨hnodup, hfits, ?_⟩, ?_⟩
    · rw [deleteVar, if_neg hnext, hshift]
      rfl
    · apply holds_encode (by simp) hholds
    · intro q hq
      apply hframe
      simp only [flatten_append, flatten_cons, List.length_append, List.length_cons]
      omega

/-! ### The definition -/

/-- The entry a call defines. -/
def newEntry (hname : IsName name) (hargs : ∀ a ∈ args, IsStr a) : Entry :=
  ⟨name, join args, hname, isStr_join hargs⟩

/-- The new definition, its NUL and the final NUL fit behind the entries `es`. -/
def Fits (size : ℕ) (es : List Entry) (name : List Byte) (args : List (List Byte)) : Prop :=
  (flatten es).length + (name ++ equals :: join args).length + 1 + 1 ≤ size

instance : Decidable (Fits size es name args) :=
  inferInstanceAs (Decidable (_ ≤ _))

@[simp]
theorem updateVars_env :
  (updateVars c g name args).env = g.env
  := by
  simp only [updateVars]
  split_ifs <;> rfl

@[simp]
theorem updateVars_inRam :
  (updateVars c g name args).inRam = g.inRam
  := by
  simp only [updateVars]
  split_ifs <;> rfl

/-- The check for an overflow compares the right numbers. -/
theorem newLen_gt_iff {a : List Byte} :
  newLen name (a :: args) > size - (flatten es).length ↔ ¬ Fits size es name (a :: args)
  := by
  rw [newLen_cons, Fits, List.length_append, List.length_cons]
  omega

theorem wellFormed_appendVar (h : WellFormed size d es) (hname : IsName name)
    (hargs : ∀ a ∈ args, IsStr a) (hne : args ≠ []) (hnew : ∀ e ∈ es, e.name ≠ name)
    (hfits : Fits size es name args) :
  WellFormed size (appendVar d (flatten es).length name args) (es ++ [newEntry hname hargs])
    ∧ ∀ q, size ≤ q → appendVar d (flatten es).length name args q = d q
  := by
  obtain ⟨a, args, rfl⟩ := List.exists_cons_of_ne_nil hne
  have hlen := newLen_cons name a args
  rw [Fits, List.length_append, List.length_cons] at hfits
  refine ⟨⟨?_, ?_, ?_⟩, ?_⟩
  · rw [List.map_append, List.nodup_append']
    refine ⟨h.nodup, by simp, ?_⟩
    rintro k hk hk'
    obtain ⟨e, he, rfl⟩ := List.mem_map.mp hk
    rw [List.map_singleton, List.mem_singleton] at hk'
    exact hnew e he hk'
  · have henc : encode (es ++ [newEntry hname hargs])
        = flatten (es ++ [newEntry hname hargs]) ++ [0] := by
      cases es <;> rfl
    rw [henc, flatten_append]
    simp only [flatten_cons, flatten_nil, List.length_append, List.length_cons, List.length_nil,
      Entry.bytes, newEntry]
    omega
  · apply appendVar_encode (newEntry hname hargs) rfl
    exact (holds_append.mp h.holds_flatten).1
  · intro q hq
    apply (appendVar_eq d (flatten es).length name a args).2
    omega

theorem defineVar_ok (h : WellFormed c.envSize g.env.data es) (hname : IsName name)
    (hargs : ∀ a ∈ args, IsStr a) (hne : args ≠ []) (hnew : ∀ e ∈ es, e.name ≠ name)
    (hfits : Fits c.envSize es name args) :
  ∃ g', defineVar c g name args = some (.ok, g')
    ∧ WellFormed c.envSize g'.env.data (es ++ [newEntry hname hargs])
    ∧ g'.env.crc = Crc32.crc32 0 (read g'.env.data 0 c.envSize) ∧ g'.inRam = g.inRam
    ∧ ∀ q, c.envSize ≤ q → g'.env.data q = g.env.data q
  := by
  obtain ⟨hwf, hframe⟩ := wellFormed_appendVar h hname hargs hne hnew hfits
  obtain ⟨a, args, rfl⟩ := List.exists_cons_of_ne_nil hne
  obtain ⟨env, hscan, henv⟩ := endScan_encode h.holds h.fits
  have hroom : ¬ newLen name (a :: args) > c.envSize - (flatten es).length := by
    rw [newLen_gt_iff, not_not]
    exact hfits
  have heq : defineVar c g name (a :: args) = some (.ok, updateVars c (envCrcUpdate c
      (g.withData (appendVar g.env.data (flatten es).length name (a :: args))))
        name (a :: args)) := by
    simp only [defineVar, hne, if_false, hscan, Option.bind_eq_bind, Option.bind_some, henv,
      if_neg hroom]
  refine ⟨_, heq, ?_, ?_, ?_, ?_⟩
  · simpa only [updateVars_env, envCrcUpdate, Globals.withData_data] using hwf
  · simp only [updateVars_env, envCrcUpdate]
  · simp only [updateVars_inRam, envCrcUpdate, Globals.withData_inRam]
  · simpa only [updateVars_env, envCrcUpdate, Globals.withData_data] using hframe

theorem defineVar_overflow (h : WellFormed c.envSize g.env.data es) (hne : args ≠ [])
    (hfits : ¬ Fits c.envSize es name args) :
  defineVar c g name args = some (.overflow, g)
  := by
  obtain ⟨a, args, rfl⟩ := List.exists_cons_of_ne_nil hne
  obtain ⟨env, hscan, henv⟩ := endScan_encode h.holds h.fits
  simp only [defineVar, hne, if_false, hscan, Option.bind_eq_bind, Option.bind_some, henv,
    if_pos (newLen_gt_iff.mpr hfits)]

/-! ### A whole call -/

/-- The checksum of the environment in RAM is right. -/
def CrcOk (c : Config) (g : Globals) : Prop :=
  g.env.crc = Crc32.crc32 0 (read g.env.data 0 c.envSize)

/-- The state with the entries `es` in RAM, NULs behind them and the right checksum. -/
def Globals.ofEntries (c : Config) (es : List Entry) : Globals :=
  envCrcUpdate c
    { inRam := true
      env := ⟨0, store (fun _ => 0) 0 (encode es)⟩
      envId := 1
      baudrate := 115200
      biIpAddr := 0
      loadAddr := 0
      bootFile := [] }

theorem wellFormed_ofEntries (hnodup : (es.map Entry.name).Nodup)
    (hfits : (encode es).length ≤ c.envSize) :
  WellFormed c.envSize (Globals.ofEntries c es).env.data es
  := ⟨hnodup, hfits, holds_store _ _ _⟩

theorem crcOk_ofEntries :
  CrcOk c (Globals.ofEntries c es)
  := rfl

/-- What a call that ends with a reply does to an environment with the entries `es`. -/
inductive Effect (c : Config) (es : List Entry) (name : List Byte) (args : List (List Byte))
    (g g' : Globals) : Reply → Prop
  | refused {r : Reply} : g'.env = g.env → r ≠ .ok → r ≠ .overflow → Effect c es name args g g' r
  | deleted : args = [] → WellFormed c.envSize g'.env.data (others es name) → CrcOk c g' →
      Effect c es name args g g' .ok
  | defined (hname : IsName name) (hargs : ∀ a ∈ args, IsStr a) : args ≠ [] →
      Fits c.envSize (others es name) name args →
      WellFormed c.envSize g'.env.data (others es name ++ [newEntry hname hargs]) → CrcOk c g' →
      Effect c es name args g g' .ok
  | overflow : args ≠ [] → ¬ Fits c.envSize (others es name) name args →
      WellFormed c.envSize g'.env.data (others es name) → g'.env.crc = g.env.crc →
      (lookup es name = none → g'.env = g.env) → Effect c es name args g g' .overflow

theorem lookup_eq_none :
  lookup es name = none ↔ ∀ e ∈ es, e.name ≠ name
  := by
  simp [lookup]

theorem others_of_ne (h : ∀ e ∈ es, e.name ≠ name) :
  others es name = es
  := by
  rw [others, List.filter_eq_self]
  simpa using h

theorem others_append_cons {es₁ es₂ : List Entry} {e : Entry}
    (h : ((es₁ ++ e :: es₂).map Entry.name).Nodup) :
  others (es₁ ++ e :: es₂) e.name = es₁ ++ es₂
  := by
  simp only [List.map_append, List.map_cons, List.nodup_append', List.nodup_cons,
    List.disjoint_cons_right, List.mem_map, not_exists, not_and] at h
  have h₁ : others es₁ e.name = es₁ := others_of_ne h.2.2.1
  have h₂ : others es₂ e.name = es₂ := others_of_ne h.2.1.1
  rw [others] at h₁ h₂ ⊢
  rw [List.filter_append, List.filter_cons_of_neg (by simp), h₁, h₂]

theorem mem_others {e : Entry} (h : e ∈ others es name) :
  e.name ≠ name
  := by
  rw [others, List.mem_filter] at h
  simpa using h.2

/-- The entries before and after the variable `name`. -/
theorem exists_split_of_lookup (h : lookup es name ≠ none) :
  ∃ es₁ e es₂, es = es₁ ++ e :: es₂ ∧ e.name = name ∧ ∀ e' ∈ es₁, e'.name ≠ name
  := by
  induction es with
  | nil => simp [lookup] at h
  | cons e es ih =>
    by_cases hen : e.name = name
    · exact ⟨[], e, es, rfl, hen, by simp⟩
    · rw [lookup_cons, if_neg hen] at h
      obtain ⟨es₁, e₀, es₂, rfl, he₀, hne⟩ := ih h
      refine ⟨e :: es₁, e₀, es₂, rfl, he₀, ?_⟩
      intro e' he'
      obtain rfl | he' := List.mem_cons.mp he'
      · exact hen
      · exact hne e' he'

/-- The last part of a call, on the state `g₁` the deletion has left. -/
theorem defineVar_effect (g g₁ : Globals)
    (h : WellFormed c.envSize g₁.env.data (others es name))
    (hname : IsName name) (hargs : ∀ a ∈ args, IsStr a) (hcrc : g₁.env.crc = g.env.crc)
    (hsame : lookup es name = none → g₁.env = g.env) :
  ∃ r g', defineVar c g₁ name args = some (r, g') ∧ Effect c es name args g g' r
    ∧ (r = .ok ∨ r = .overflow) ∧ g'.inRam = g₁.inRam
    ∧ ∀ q, c.envSize ≤ q → g'.env.data q = g₁.env.data q
  := by
  by_cases hne : args = []
  · subst hne
    exact ⟨.ok, envCrcUpdate c g₁, by simp [defineVar], .deleted rfl h rfl, .inl rfl, rfl,
      fun _ _ => rfl⟩
  by_cases hfits : Fits c.envSize (others es name) name args
  · obtain ⟨g', hg', hwf, hcrc', hram, hframe⟩ :=
      defineVar_ok h hname hargs hne (fun _ => mem_others) hfits
    exact ⟨.ok, g', hg', .defined hname hargs hne hfits hwf hcrc', .inl rfl, hram, hframe⟩
  · exact ⟨.overflow, g₁, defineVar_overflow h hne hfits, .overflow hne hfits h hcrc hsame,
      .inr rfl, rfl, fun _ _ => rfl⟩

/-- The deletion of the variable, and the last part of a call after it. -/
theorem deleteVar_effect {es₁ es₂ : List Entry} {e : Entry} (g g₁ : Globals)
    (h : WellFormed c.envSize g.env.data (es₁ ++ e :: es₂)) (hargs : ∀ a ∈ args, IsStr a)
    (hg : g₁.env = g.env) :
  ∃ r g', (do
      let d ← deleteVar g₁.env.data c.envSize (flatten es₁).length
        ((flatten es₁).length + e.bytes.length)
      defineVar c (g₁.withData d) e.name args) = some (r, g')
    ∧ Effect c (es₁ ++ e :: es₂) e.name args g g' r
    ∧ (r = .ok ∨ r = .overflow) ∧ g'.inRam = g₁.inRam
    ∧ ∀ q, c.envSize ≤ q → g'.env.data q = g.env.data q
  := by
  obtain ⟨d, hd, hwf, hframe⟩ := deleteVar_eq h
  rw [← others_append_cons h.nodup] at hwf
  have hsome : lookup (es₁ ++ e :: es₂) e.name ≠ none := by
    rw [Ne, lookup_eq_none]
    exact fun hne => hne e (by simp) rfl
  obtain ⟨r, g', hg', heff, hr, hram, hframe'⟩ :=
    defineVar_effect g (g₁.withData d) hwf e.isName hargs
      (by rw [Globals.withData_crc, hg]) (fun hnone => absurd hnone hsome)
  refine ⟨r, g', ?_, heff, hr, hram, ?_⟩
  · rw [hg, hd]
    exact hg'
  · intro q hq
    rw [hframe' q hq, Globals.withData_data, hframe q hq]

/-- A name without one of the special cases of `_do_setenv`. -/
def Plain (name : List Byte) : Prop :=
  name ∉ [ascii "stdin", ascii "stdout", ascii "stderr", ascii "baudrate", ascii "ethaddr",
    ascii "serial#"]

instance : Decidable (Plain name) :=
  inferInstanceAs (Decidable (_ ∉ _))

theorem Plain.consoleCheck_eq (h : Plain name) :
  consoleCheck c x name args = none
  := by
  simp only [Plain, List.mem_cons, not_or] at h
  simp [consoleCheck, consoleOf, h]

theorem Plain.protectedVar_eq (h : Plain name) (oldval : ℕ) :
  protectedVar c flag d name oldval = false
  := by
  simp only [Plain, List.mem_cons, not_or] at h
  simp [protectedVar, h]

theorem Plain.newBaudrate_eq (h : Plain name) :
  newBaudrate x name args = none
  := by
  simp only [Plain, List.mem_cons, not_or] at h
  simp [newBaudrate, h]

theorem consoleCheck_some {r : Reply} (h : consoleCheck c x name args = some r) :
  r ≠ .ok ∧ r ≠ .overflow ∧ ¬ Plain name
  := by
  have hplain : ¬ Plain name := by
    intro hp
    rw [hp.consoleCheck_eq] at h
    contradiction
  refine ⟨?_, ?_, hplain⟩ <;>
    (simp only [consoleCheck] at h; split at h <;> (try split at h) <;> (try split_ifs at h) <;> aesop)

/-- The state `g₁` the search starts from differs from `g` outside the environment only. -/
theorem changeVar_effect (x : Devices) (flag : Word) (g g₁ : Globals) (hg : g₁.env = g.env)
    (h : WellFormed c.envSize g.env.data es) (hname : IsName name) (hargs : ∀ a ∈ args, IsStr a) :
  ∃ found r g', findVar g₁.env.data c.envSize name c.envSize 0 = some found
    ∧ changeVar c x flag g₁ name args found = some (r, g') ∧ Effect c es name args g g' r
    ∧ (Plain name → r = .ok ∨ r = .overflow) ∧ g'.inRam = g₁.inRam
    ∧ ∀ q, c.envSize ≤ q → g'.env.data q = g.env.data q
  := by
  have refused {found : Option Found} {r : Reply}
      (hfind : findVar g₁.env.data c.envSize name c.envSize 0 = some found)
      (heq : changeVar c x flag g₁ name args found = some (r, g₁))
      (hr : r ≠ .ok ∧ r ≠ .overflow ∧ ¬ Plain name) :
      ∃ found r g', findVar g₁.env.data c.envSize name c.envSize 0 = some found
        ∧ changeVar c x flag g₁ name args found = some (r, g') ∧ Effect c es name args g g' r
        ∧ (Plain name → r = .ok ∨ r = .overflow) ∧ g'.inRam = g₁.inRam
        ∧ ∀ q, c.envSize ≤ q → g'.env.data q = g.env.data q :=
    ⟨found, r, g₁, hfind, heq, .refused hg hr.1 hr.2.1, fun hp => absurd hp hr.2.2, rfl,
      by simp [hg]⟩
  by_cases hnone : lookup es name = none
  · have hne := lookup_eq_none.mp hnone
    have hfind : findVar g₁.env.data c.envSize name c.envSize 0 = some none := by
      rw [hg]
      exact findVar_none h hname hne
    cases hcons : consoleCheck c x name args with
    | some r => exact refused hfind (by simp [changeVar, hcons]) (consoleCheck_some hcons)
    | none =>
      obtain ⟨r, g', hg', heff, hr, hram, hframe⟩ :=
        defineVar_effect g g₁ (by rwa [hg, others_of_ne hne]) hname hargs
          (by rw [hg]) (fun _ => hg)
      refine ⟨none, r, g', hfind, ?_, heff, fun _ => hr, hram, ?_⟩
      · simpa [changeVar, hcons] using hg'
      · rwa [hg] at hframe
  · obtain ⟨es₁, e, es₂, rfl, rfl, hne⟩ := exists_split_of_lookup hnone
    obtain ⟨oldval, hfind⟩ := findVar_some h hne
    rw [← hg] at hfind
    cases hcons : consoleCheck c x e.name args with
    | some r => exact refused hfind (by simp [changeVar, hcons]) (consoleCheck_some hcons)
    | none =>
      by_cases hprot : protectedVar c flag g₁.env.data e.name oldval = true
      · apply refused hfind (r := .cannotOverwrite) (by simp [changeVar, hcons, hprot])
        refine ⟨by simp, by simp, fun hp => ?_⟩
        rw [hp.protectedVar_eq] at hprot
        contradiction
      cases hbaud : newBaudrate x e.name args with
      | none =>
        obtain ⟨r, g', hg', heff, hr, hram, hframe⟩ :=
          deleteVar_effect g g₁ h hargs hg
        refine ⟨_, r, g', hfind, ?_, heff, fun _ => hr, hram, hframe⟩
        simpa [changeVar, hcons, hprot, hbaud] using hg'
      | some b =>
        have hplain : ¬ Plain e.name := by
          intro hp
          rw [hp.newBaudrate_eq] at hbaud
          contradiction
        by_cases hb : b ∈ c.baudrateTable
        · obtain ⟨r, g', hg', heff, hr, hram, hframe⟩ :=
            deleteVar_effect g { g₁ with baudrate := b } h hargs hg
          refine ⟨_, r, g', hfind, ?_, heff, fun hp => absurd hp hplain, hram, hframe⟩
          simpa [changeVar, hcons, hprot, hbaud, hb] using hg'
        · exact refused hfind (r := .badBaudrate b) (by simp [changeVar, hcons, hprot, hbaud, hb])
            ⟨by simp, by simp, hplain⟩

/-- **What a call does.**  On a well-formed environment a call ends with one of the four
effects, and no cell outside the data area changes; for a plain name it is not refused. -/
theorem doSetenv_effect (hram : g.inRam = true) (h : WellFormed c.envSize g.env.data es)
    (hname : IsStr name) (hargs : ∀ a ∈ args, IsStr a) :
  ∃ r g', doSetenv c x flag g name args = some (r, g') ∧ Effect c es name args g g' r
    ∧ (equals ∉ name → Plain name → r = .ok ∨ r = .overflow) ∧ g'.inRam = true
    ∧ ∀ q, c.envSize ≤ q → g'.env.data q = g.env.data q
  := by
  by_cases heq : equals ∈ name
  · refine ⟨.illegalName, g, by simp [doSetenv, hram, heq], .refused rfl (by simp) (by simp),
      fun hne => absurd heq hne, hram, fun _ _ => rfl⟩
  · obtain ⟨found, r, g', hfind, hchange, heff, hplain, hram', hframe⟩ :=
      changeVar_effect x flag g { g with envId := g.envId + 1 } rfl h ⟨hname, heq⟩ hargs
    refine ⟨r, g', ?_, heff, fun _ => hplain, by rw [hram', hram], hframe⟩
    rw [doSetenv, if_neg (by simp [hram]), if_neg heq]
    exact Option.bind_eq_some_iff.mpr ⟨found, hfind, hchange⟩

/-! ### The finite map -/

/-- The value `getenv` finds for a variable of the environment in RAM. -/
def getenvRam (c : Config) (g : Globals) (name : List Byte) : Option (Option (List Byte)) :=
  getenvStr g.env.data c.configEnvSize name

theorem getenvRam_eq (h : WellFormed c.envSize g.env.data es) (hname : IsName name) :
  getenvRam c g name = some (lookup es name)
  := h.getenvStr_eq (Nat.le_add_right _ _) hname

theorem lookup_others_self :
  lookup (others es name) name = none
  := lookup_eq_none.mpr fun _ => mem_others

theorem lookup_others {m : List Byte} (h : m ≠ name) :
  lookup (others es name) m = lookup es m
  := by
  induction es with
  | nil => rfl
  | cons e es ih =>
    rw [others] at ih ⊢
    by_cases hen : e.name = name
    · rw [List.filter_cons_of_neg (by simpa using hen), ih, lookup_cons, if_neg]
      rw [hen]
      exact h.symm
    · rw [List.filter_cons_of_pos (by simpa using hen), lookup_cons, lookup_cons, ih]

theorem lookup_append_singleton (e : Entry) (m : List Byte) :
  lookup (es ++ [e]) m = (lookup es m).or (if e.name = m then some e.value else none)
  := by
  induction es with
  | nil =>
    rw [List.nil_append, lookup_cons]
    simp [lookup]
  | cons e' es ih =>
    rw [List.cons_append, lookup_cons, lookup_cons, ih]
    split <;> simp

/-- **`setenv` and `getenv` implement a finite map.**  On a well-formed environment, a call
for a plain name succeeds or reports an overflow.  When it succeeds, `getenv` finds the
arguments joined by blanks under the name (nothing when there is no argument), finds what
it found before under every other name, and the environment is well formed again.  It
reports an overflow exactly when the other entries, the new one and the final NUL do not
fit. -/
theorem doSetenv_finiteMap (x : Devices) (flag : Word) (name : List Byte)
    (args : List (List Byte)) (hram : g.inRam = true) (h : WellFormed c.envSize g.env.data es)
    (hname : IsName name) (hplain : Plain name) (hargs : ∀ a ∈ args, IsStr a) :
  ∃ r g', doSetenv c x flag g name args = some (r, g')
    ∧ (r = .ok ∨ r = .overflow)
    ∧ (r.rc = 0 →
        getenvRam c g' name = some (if args = [] then none else some (join args))
        ∧ (∀ m, IsName m → m ≠ name → getenvRam c g' m = getenvRam c g m)
        ∧ ∃ es', WellFormed c.envSize g'.env.data es')
    ∧ (r = .overflow ↔ args ≠ [] ∧ ¬ Fits c.envSize (others es name) name args)
  := by
  obtain ⟨r, g', heq, heff, hr, -, -⟩ := doSetenv_effect (x := x) hram h hname.1 hargs
  refine ⟨r, g', heq, hr hname.2 hplain, ?_⟩
  cases heff with
  | refused _ hok hov =>
    obtain rfl | rfl := hr hname.2 hplain
    · contradiction
    · contradiction
  | deleted hnil hwf _ =>
    subst hnil
    refine ⟨fun _ => ⟨?_, ?_, _, hwf⟩, by simp⟩
    · rw [getenvRam_eq hwf hname, lookup_others_self, if_pos rfl]
    · intro m hm hne
      rw [getenvRam_eq hwf hm, getenvRam_eq h hm, lookup_others hne]
  | defined hname' hargs' hne hfits hwf _ =>
    refine ⟨fun _ => ⟨?_, ?_, _, hwf⟩, by simp [hfits]⟩
    · rw [getenvRam_eq hwf hname, lookup_append_singleton, lookup_others_self, if_neg hne]
      simp [newEntry]
    · intro m hm hm'
      rw [getenvRam_eq hwf hm, getenvRam_eq h hm, lookup_append_singleton, lookup_others hm',
        if_neg, Option.or_none]
      exact hm'.symm
  | overflow hne hfits _ _ _ =>
    exact ⟨by simp [Reply.rc], by simp [hne, hfits]⟩

/-- Console drivers that accept everything. -/
def Devices.accepting : Devices where
  iomuxDoenv _ _ := 0
  consoleAssign _ _ := 0
  serialAssign _ := 0
  atNull := []

/-- The variable `a` with the value `b`. -/
def entryAB : Entry := ⟨ascii "a", ascii "b", by decide, by decide⟩

theorem doSetenv_finiteMap_sam460ex :
  ∃ r g', doSetenv sam460ex .accepting 0 (.ofEntries sam460ex [entryAB]) (ascii "b")
      [ascii "x", ascii "y"] = some (r, g')
    ∧ (r = .ok ∨ r = .overflow)
    ∧ (r.rc = 0 → getenvRam sam460ex g' (ascii "b") = some (some (ascii "x y")))
    ∧ r ≠ .overflow
  := by
  have hwf : WellFormed sam460ex.envSize (Globals.ofEntries sam460ex [entryAB]).env.data
      [entryAB] := wellFormed_ofEntries (by decide) (by decide)
  obtain ⟨r, g', heq, hr, hok, hov⟩ :=
    doSetenv_finiteMap .accepting 0 (ascii "b") [ascii "x", ascii "y"] rfl hwf (by decide)
      (by decide) (by decide)
  refine ⟨r, g', heq, hr, fun hrc => (hok hrc).1, ?_⟩
  rw [Ne, hov]
  simp only [Fits]
  decide

end Env
