import UBoot.Env.Eeprom
import UBoot.Menu.Bios

/-!
# Settings

A choice of a popup item is saved to a variable of the environment, and a fresh menu loads it from
there.  `setenv` deletes a variable that is set to the empty string, and a popup item whose
variable is missing keeps the choice it was made with: `popup_roundTrip_iff` says which choices
come back.
-/

namespace Menu

open Env

/-- The environment in RAM. -/
def ramEnv (c : Config) (x : Devices) : EnvOps Globals where
  getenv g name := (getenvRam c g name).join
  setenv g name value := ((Env.setenv c x g name value).map Prod.snd).getD g

/-- A popup item whose value texts are distinct. -/
structure PopupItem where
  choice : ℕ
  var : List Byte
  entries : List (List Byte)
  isStr_var : IsStr var
  isStr_entries : ∀ text ∈ entries, IsStr text
  nodup : entries.Nodup

/-- The item that is made of it. -/
def PopupItem.alloc (it : PopupItem) : ItemT := itemtypePopupAlloc it.choice it.var it.entries

/-- The choice of a fresh menu, after the choice of the menu `s` was saved. -/
def reloaded {E : Type} (ops : EnvOps E) (menus : List MenuT) (r : ItemRef) (it : PopupItem)
    (s : State E) : ℕ :=
  (load ops r it.alloc (newState menus (save ops r it.alloc s).env)).choice r

variable {c : Config} {x : Devices} {menus : List MenuT} {r : ItemRef} {it : PopupItem}
  {g : Globals} {es : List Entry}

/-- The value text of a choice. -/
def PopupItem.text (it : PopupItem) (choice : Fin it.entries.length) : List Byte :=
  it.entries.get choice

theorem PopupItem.isStr_text (choice : Fin it.entries.length) :
  IsStr (it.text choice)
  := it.isStr_entries _ (List.get_mem _ _)

/-- The call of `setenv` that saves the text of a choice. -/
def PopupItem.saveCall (it : PopupItem) (x : Devices) (choice : Fin it.entries.length) : Call where
  devices := x
  flag := 0
  name := it.var
  args := if it.text choice = [] then [] else [it.text choice]
  isStr_name := it.isStr_var
  isStr_args := by
    intro a ha
    split_ifs at ha
    · simp at ha
    · rw [List.mem_singleton] at ha
      rw [ha]
      exact it.isStr_text choice

/-- The choice that the value of the variable stands for; a missing or unknown value leaves the
choice the item was made with. -/
def PopupItem.choiceOf (it : PopupItem) (value : Option (List Byte)) : ℕ :=
  (value.bind fun v => it.entries.findIdx? fun text => text = v).getD it.choice

theorem PopupItem.choiceOf_text (choice : Fin it.entries.length) :
  it.choiceOf (some (it.text choice)) = choice
  := by
  have hfind : (it.entries.findIdx? fun text => text = it.text choice) = some choice.val := by
    rw [List.findIdx?_eq_some_iff_getElem]
    refine ⟨choice.isLt, ?_, ?_⟩
    · rw [decide_eq_true_eq]
      rfl
    · intro j hj
      rw [decide_eq_true_eq]
      intro heq
      have hj' : j = choice.val := (List.Nodup.getElem_inj_iff it.nodup).mp heq
      omega
  rw [choiceOf, Option.bind_some, hfind, Option.getD_some]

theorem PopupItem.choiceOf_none :
  it.choiceOf none = it.choice
  := rfl

theorem reloaded_eq {E : Type} {ops : EnvOps E} {s : State E}
    (hitem : itemAt menus r = some it.alloc) (hloaded : s.loaded r = true)
    (choice : Fin it.entries.length) (hchoice : s.choice r = choice) :
  reloaded ops menus r it s
    = it.choiceOf (ops.getenv (ops.setenv s.env it.var (it.text choice)) it.var)
  := by
  have hsave : (save ops r it.alloc s).env = ops.setenv s.env it.var (it.text choice) := by
    simp only [save, PopupItem.alloc, itemtypePopupAlloc, hloaded, if_true, hchoice]
    rw [List.getD_eq_getElem?_getD, List.getElem?_eq_getElem choice.isLt, Option.getD_some]
    rfl
  have hfresh (env : E) : (newState menus env).choice r = it.choice := by
    simp only [newState, hitem, Option.map_some, PopupItem.alloc, itemtypePopupAlloc]
  rw [reloaded, hsave]
  simp only [load, PopupItem.alloc, itemtypePopupAlloc]
  rw [if_neg (by simp [newState])]
  simp only [Function.update_self, hfresh]
  rfl

/-- What `setenv` leaves in the variable. -/
theorem getenv_setenv (choice : Fin it.entries.length) (hram : g.inRam = true)
    (h : Env.WellFormed c.envSize g.env.data es) :
  (Passes c g (it.saveCall x choice) →
      (ramEnv c x).getenv ((ramEnv c x).setenv g it.var (it.text choice)) it.var
        = if it.text choice ≠ []
            ∧ Fits c.envSize (others es it.var) it.var [it.text choice]
          then some (it.text choice) else none)
    ∧ (¬ Passes c g (it.saveCall x choice) →
      (ramEnv c x).getenv ((ramEnv c x).setenv g it.var (it.text choice)) it.var
        = (ramEnv c x).getenv g it.var)
  := by
  have hargs : (it.saveCall x choice).args = if it.text choice = [] then [] else [it.text choice] :=
    rfl
  obtain ⟨reply, g', heq, heff, -, -, -⟩ :
      ∃ r g', doSetenv c x 0 g (it.saveCall x choice).name (it.saveCall x choice).args
          = some (r, g')
        ∧ Effect c es (it.saveCall x choice).name (it.saveCall x choice).args g g' r
        ∧ _ ∧ g'.inRam = true ∧ ∀ q, c.envSize ≤ q → g'.env.data q = g.env.data q :=
    doSetenv_effect hram h (it.saveCall x choice).isStr_name (it.saveCall x choice).isStr_args
  have hset : (ramEnv c x).setenv g it.var (it.text choice) = g' := by
    have heq' : Env.setenv c x g it.var (it.text choice) = some (reply, g') := heq
    simp only [ramEnv, heq', Option.map_some, Option.getD_some]
  have hpasses (hreply : Changes reply) : Passes c g (it.saveCall x choice) :=
    passes_of_changes hreply heq
  rw [hset]
  refine ⟨?_, ?_⟩
  · intro hp
    have hname : IsName it.var := ⟨it.isStr_var, hp.name⟩
    have hget {es' : List Entry} (hwf : Env.WellFormed c.envSize g'.env.data es') :
        (ramEnv c x).getenv g' it.var = lookup es' it.var := by
      simp only [ramEnv, getenvRam_eq hwf hname, Option.join_some]
    have hchanges := hp.changes hram heq
    rw [hargs] at heff
    by_cases htext : it.text choice = []
    · rw [if_pos htext] at heff
      rw [if_neg (by simp [htext])]
      cases heff with
      | refused _ hok hov => exact absurd hchanges (by simp [Changes, hok, hov])
      | deleted _ hwf _ => exact (hget hwf).trans lookup_others_self
      | defined _ _ hne => exact absurd rfl hne
      | overflow hne => exact absurd rfl hne
    · rw [if_neg htext] at heff
      cases heff with
      | refused _ hok hov => exact absurd hchanges (by simp [Changes, hok, hov])
      | deleted hnil => exact absurd hnil (by simp)
      | defined hname' hstr _ hfits hwf _ =>
        rw [if_pos ⟨htext, hfits⟩, hget hwf, lookup_append_singleton]
        have hnone : lookup (others es (it.saveCall x choice).name) it.var = none :=
          lookup_others_self
        have hvar : (it.saveCall x choice).name = it.var := rfl
        rw [hnone]
        simp [newEntry, join, hvar]
      | overflow _ hfits hwf _ _ =>
        rw [if_neg fun hand => hfits hand.2]
        exact (hget hwf).trans lookup_others_self
  · intro hp
    cases heff with
    | refused henv _ _ => simp only [ramEnv, getenvRam, henv]
    | deleted => exact absurd (hpasses (.inl rfl)) hp
    | defined => exact absurd (hpasses (.inl rfl)) hp
    | overflow => exact absurd (hpasses (.inr rfl)) hp

/-- A choice of a popup item is saved and loaded into a fresh menu: the same choice is selected
again exactly when its text is not empty and fits into the environment, or it is the choice the
item is made with.  When `setenv` refuses the variable, the old value decides. -/
theorem popup_roundTrip_iff (c : Config) (x : Devices) (menus : List MenuT) (r : ItemRef)
    (it : PopupItem) (s : State Globals) (es : List Entry) (choice : Fin it.entries.length)
    (hitem : itemAt menus r = some it.alloc) (hloaded : s.loaded r = true)
    (hchoice : s.choice r = choice) (hram : s.env.inRam = true)
    (h : Env.WellFormed c.envSize s.env.env.data es) :
  reloaded (ramEnv c x) menus r it s = s.choice r
    ↔ (Passes c s.env (it.saveCall x choice) →
        it.text choice ≠ [] ∧ Fits c.envSize (others es it.var) it.var [it.text choice]
          ∨ s.choice r = it.choice)
      ∧ (¬ Passes c s.env (it.saveCall x choice) →
        it.choiceOf ((ramEnv c x).getenv s.env it.var) = s.choice r)
  := by
  obtain ⟨hpass, hrefuse⟩ := getenv_setenv (x := x) choice hram h
  rw [reloaded_eq hitem hloaded choice hchoice]
  by_cases hp : Passes c s.env (it.saveCall x choice)
  · rw [hpass hp]
    simp only [hp, not_true, false_imp_iff, and_true, true_imp_iff]
    split_ifs with htext
    · rw [it.choiceOf_text, hchoice]
      exact iff_of_true rfl (.inl htext)
    · rw [it.choiceOf_none, or_iff_right htext, eq_comm]
  · rw [hrefuse hp]
    simp only [hp, not_false_iff, false_imp_iff, true_and, true_imp_iff]

/-- The item "Boot Device 1". -/
def bootDevice1 : PopupItem where
  choice := 0
  var := ascii "boot1"
  entries := Bios.bootSeq
  isStr_var := by decide
  isStr_entries := by decide
  nodup := by decide

/-- The preferences menu with a choice made for "Boot Device 1", in an environment with one other
variable. -/
def withBootDevice1 (choice : ℕ) : State Globals :=
  { newState (Bios.makeMenus 0 true) (.ofEntries sam460ex [entryAB]) with
    choice := fun _ => choice
    loaded := fun _ => true }

/-- "USB HD" comes back. -/
theorem bootDevice1_usb :
  reloaded (ramEnv sam460ex .accepting) (Bios.makeMenus 0 true) ⟨.listed 5, 0⟩ bootDevice1
    (withBootDevice1 8) = 8
  := by
  have hwf : Env.WellFormed sam460ex.envSize (withBootDevice1 8).env.env.data [entryAB] :=
    wellFormed_ofEntries (by decide) (by decide)
  have hplain : Plain (ascii "boot1") := by decide
  have hpasses : Passes sam460ex (withBootDevice1 8).env
      (bootDevice1.saveCall .accepting ⟨8, by decide⟩) :=
    ⟨by decide, hplain.consoleCheck_eq, fun f _ => hplain.protectedVar_eq f.oldval, by
      intro f _ b hb
      have hnone : newBaudrate (bootDevice1.saveCall .accepting ⟨8, by decide⟩).devices
          (bootDevice1.saveCall .accepting ⟨8, by decide⟩).name
          (bootDevice1.saveCall .accepting ⟨8, by decide⟩).args = none := hplain.newBaudrate_eq
      rw [hnone] at hb
      simp at hb⟩
  apply (popup_roundTrip_iff sam460ex .accepting (Bios.makeMenus 0 true) ⟨.listed 5, 0⟩ bootDevice1
    (withBootDevice1 8) [entryAB] ⟨8, by decide⟩ (by decide) rfl rfl rfl hwf).mpr
  refine ⟨fun _ => .inl ?_, fun hnot => absurd hpasses hnot⟩
  decide

/-- "none" comes back as "0680 PATA HD". -/
theorem bootDevice1_none :
  reloaded (ramEnv sam460ex .accepting) (Bios.makeMenus 0 true) ⟨.listed 5, 0⟩ bootDevice1
      (withBootDevice1 10) = 0
    ∧ (withBootDevice1 10).choice ⟨.listed 5, 0⟩ = 10
  := by
  decide +kernel

end Menu
