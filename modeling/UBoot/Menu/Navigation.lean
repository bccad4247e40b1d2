import UBoot.Lib.Run
import UBoot.Menu.Bios

/-!
# Navigation

Whatever keys are pressed, the current menu has a current item of its own that is enabled, and a
popup is left for the form and the item it was opened from (`biosMenu_sound_iff`), as long as no
menu is opened that has only disabled items: `menu_layout` leaves such a menu without a current
item.  Strings that are too long for an item are copied to it all the same, over what is behind.

One invariant carries the proof, and `handle_spec` says what a key can do to it; `handle_overrun`
says what it does to the strings.
-/

namespace Menu

variable {E : Type} {ops : EnvOps E} {menus : List MenuT} {s s' : State E} {m : MenuId}
  {name : List Byte} {r : ItemRef}

/-! ### Forms -/

/-- The name of a form menu. -/
def Leads (menus : List MenuT) (name : List Byte) : Prop :=
  (menuFormFindMenu menus name).bind (fun k => typeOf menus (.listed k)) = some .form

instance : Decidable (Leads menus name) :=
  inferInstanceAs (Decidable (_ = _))

/-- The entries of a popup item. -/
def entriesAt (menus : List MenuT) (r : ItemRef) : Option (List (List Byte)) :=
  (itemAt menus r).bind fun item =>
    match item.kind with
    | .popup _ _ entries => some entries
    | _ => none

/-- An item whose menu is there, and whose choice is one of the entries. -/
def ItemT.WellFormed (menus : List MenuT) (item : ItemT) : Prop :=
  match item.kind with
  | .func (.choose r i) => ∀ entries ∈ entriesAt menus r, i < entries.length
  | .submenu name => Leads menus name
  | .popup choice _ entries => choice < entries.length
  | _ => True

instance : (item : ItemT) → Decidable (item.WellFormed menus)
  | ⟨.func (.choose r i), _⟩ =>
    inferInstanceAs (Decidable (∀ entries ∈ entriesAt menus r, i < entries.length))
  | ⟨.func (.leave _), _⟩ => .isTrue trivial
  | ⟨.func (.myLeave _), _⟩ => .isTrue trivial
  | ⟨.submenu name, _⟩ => inferInstanceAs (Decidable (Leads menus name))
  | ⟨.popup choice _ entries, _⟩ => inferInstanceAs (Decidable (choice < entries.length))
  | ⟨.stringCvar _ _, _⟩ => .isTrue trivial
  | ⟨.label, _⟩ => .isTrue trivial

/-- An item that only calls a function. -/
def ItemT.IsFunc (item : ItemT) : Prop := ∃ func, item = itemtypeFuncAlloc func

/-- The function of an item that only calls one. -/
def ItemT.func? : ItemT → Option Func
  | ⟨.func func, false⟩ => some func
  | _ => none

instance (item : ItemT) : Decidable item.IsFunc :=
  decidable_of_iff (item.func?.isSome) (by
    obtain ⟨kind, disabled⟩ := item
    cases kind <;> cases disabled <;> simp [ItemT.IsFunc, ItemT.func?, itemtypeFuncAlloc])

/-- A menu of a form: its items and its parent are well formed, and a popup has function items
only, at least one. -/
structure MenuT.WellFormed (menus : List MenuT) (menu : MenuT) : Prop where
  items : ∀ item ∈ menu.itemList, item.WellFormed menus
  parent : ∀ name ∈ menu.parentMenu, Leads menus name
  popup : menu.type = .popup → menu.itemList ≠ [] ∧ ∀ item ∈ menu.itemList, item.IsFunc

instance (menu : MenuT) : Decidable (menu.WellFormed menus) :=
  decidable_of_iff ((∀ item ∈ menu.itemList, item.WellFormed menus)
      ∧ (∀ name ∈ menu.parentMenu, Leads menus name)
      ∧ (menu.type = .popup → menu.itemList ≠ [] ∧ ∀ item ∈ menu.itemList, item.IsFunc))
    ⟨fun h => ⟨h.1, h.2.1, h.2.2⟩, fun h => ⟨h.items, h.parent, h.popup⟩⟩

/-- The menus that a form is made of. -/
def WellFormed (menus : List MenuT) : Prop := ∀ menu ∈ menus, menu.WellFormed menus

instance : Decidable (WellFormed menus) :=
  inferInstanceAs (Decidable (∀ menu ∈ menus, menu.WellFormed menus))

theorem menuAt_popupOf {i : ℕ} {menu : MenuT} (h : menuAt menus (.popupOf m i) = some menu) :
  ∃ item choice var entries, itemAt menus ⟨m, i⟩ = some item
    ∧ item.kind = .popup choice var entries ∧ menu = popupMenu ⟨m, i⟩ entries
  := by
  rw [menuAt] at h
  obtain ⟨menu', hm, h⟩ := Option.bind_eq_some_iff.mp h
  obtain ⟨item, hi, h⟩ := Option.bind_eq_some_iff.mp h
  split at h
  case h_1 choice var entries hkind =>
    refine ⟨item, choice, var, entries, ?_, hkind, (Option.some.inj h).symm⟩
    rw [itemAt, hm, Option.bind_some, hi]
  case h_2 => simp at h

theorem entriesAt_eq {item : ItemT} {choice : ℕ} {var : List Byte} {entries : List (List Byte)}
    (h : itemAt menus r = some item) (hkind : item.kind = .popup choice var entries) :
  entriesAt menus r = some entries
  := by
  rw [entriesAt, h, Option.bind_some, hkind]

theorem exists_of_entriesAt {entries : List (List Byte)} (h : entriesAt menus r = some entries) :
  ∃ item choice var, itemAt menus r = some item ∧ item.kind = .popup choice var entries
  := by
  obtain ⟨item, hitem, h⟩ := Option.bind_eq_some_iff.mp h
  split at h
  case h_1 choice var entries' hkind =>
    obtain rfl := Option.some.inj h
    exact ⟨item, choice, var, hitem, hkind⟩
  case h_2 => simp at h

theorem popupMenu_wellFormed {entries : List (List Byte)} (h : entriesAt menus r = some entries)
    (hne : entries ≠ []) :
  (popupMenu r entries).WellFormed menus
  := by
  refine ⟨?_, by simp [popupMenu], ?_⟩
  · intro item hitem
    obtain ⟨i, hi, rfl⟩ := List.mem_map.mp hitem
    intro entries' hentries
    rw [h, Option.mem_some_iff] at hentries
    rw [← hentries]
    apply List.mem_range.mp hi
  · intro _
    refine ⟨?_, ?_⟩
    · simpa [popupMenu] using hne
    · intro item hitem
      obtain ⟨i, -, rfl⟩ := List.mem_map.mp hitem
      exact ⟨_, rfl⟩

/-- The popups of popup items are well formed as well. -/
theorem WellFormed.menuAt (h : WellFormed menus) {menu : MenuT}
    (hm : Menu.menuAt menus m = some menu) :
  menu.WellFormed menus
  := by
  induction m generalizing menu with
  | listed k => apply h menu (List.mem_of_getElem? hm)
  | popupOf m i ih =>
    obtain ⟨item, choice, var, entries, hitem, hkind, rfl⟩ := menuAt_popupOf hm
    apply popupMenu_wellFormed (entriesAt_eq hitem hkind)
    obtain ⟨menu', hm', hi⟩ := Option.bind_eq_some_iff.mp hitem
    have hwf := (ih hm').items item (List.mem_of_getElem? hi)
    rw [ItemT.WellFormed, hkind] at hwf
    rintro rfl
    simp at hwf

theorem WellFormed.itemAt (h : WellFormed menus) {item : ItemT}
    (hitem : Menu.itemAt menus r = some item) :
  item.WellFormed menus
  := by
  obtain ⟨menu, hm, hi⟩ := Option.bind_eq_some_iff.mp hitem
  exact (h.menuAt hm).items item (List.mem_of_getElem? hi)

theorem items_eq {menu : MenuT} (h : menuAt menus m = some menu) :
  items menus m = menu.itemList
  := by
  rw [items, h, Option.elim_some]

theorem itemAt_eq (r : ItemRef) :
  itemAt menus r = (items menus r.menu)[r.nr]?
  := by
  rw [itemAt, items]
  cases menuAt menus r.menu <;> rfl

/-- The item is there, and it is not disabled. -/
def Enabled (menus : List MenuT) (r : ItemRef) : Prop :=
  ∃ item, itemAt menus r = some item ∧ item.disabled = false

instance : Decidable (Enabled menus r) :=
  decidable_of_iff ((itemAt menus r).any fun item => item.disabled = false) (by
    rw [Enabled]
    cases itemAt menus r <;> simp)

/-- Some item of the menu is enabled. -/
def Selectable (menus : List MenuT) (m : MenuId) : Prop :=
  ∃ item ∈ items menus m, item.disabled = false

instance : Decidable (Selectable menus m) :=
  inferInstanceAs (Decidable (∃ item ∈ items menus m, item.disabled = false))

theorem Enabled.selectable (h : Enabled menus r) :
  Selectable menus r.menu
  := by
  obtain ⟨item, hitem, hdis⟩ := h
  rw [itemAt_eq] at hitem
  exact ⟨item, List.mem_of_getElem? hitem, hdis⟩

/-- A popup has an item, and all its items are enabled. -/
theorem WellFormed.popup_selectable (h : WellFormed menus) (hm : typeOf menus m = some .popup) :
  Selectable menus m ∧ ∀ nr < (items menus m).length, Enabled menus ⟨m, nr⟩
  := by
  obtain ⟨menu, hmenu, htype⟩ := Option.map_eq_some_iff.mp hm
  obtain ⟨hne, hfunc⟩ := (h.menuAt hmenu).popup htype
  have henabled (nr : ℕ) (hnr : nr < (items menus m).length) : Enabled menus ⟨m, nr⟩ := by
    refine ⟨(items menus m)[nr], ?_, ?_⟩
    · rw [itemAt_eq, List.getElem?_eq_getElem hnr]
    · simp only [items_eq hmenu] at hnr ⊢
      obtain ⟨func, hf⟩ := hfunc _ (List.getElem_mem hnr)
      rw [hf]
      rfl
  refine ⟨?_, henabled⟩
  apply (henabled 0 _).selectable
  rw [items_eq hmenu, List.length_pos_iff]
  exact hne

/-! ### Walks over items -/

theorem skipDisabled_some {list : List ItemT} {i j : ℕ} (h : skipDisabled list i = some j) :
  i ≤ j ∧ ∃ item, list[j - i]? = some item ∧ item.disabled = false
  := by
  induction list generalizing i with
  | nil => simp [skipDisabled] at h
  | cons item list ih =>
    rw [skipDisabled] at h
    split_ifs at h with hdis
    · obtain ⟨hle, item', hitem', hdis'⟩ := ih h
      refine ⟨by omega, item', ?_, hdis'⟩
      rw [show j - i = j - (i + 1) + 1 by omega, List.getElem?_cons_succ, hitem']
    · obtain rfl := Option.some.inj h
      refine ⟨le_rfl, item, ?_, by simpa using hdis⟩
      rw [Nat.sub_self, List.getElem?_cons_zero]

theorem skipDisabled_isSome {list : List ItemT} {i : ℕ}
    (h : ∃ item ∈ list, item.disabled = false) :
  ∃ j, skipDisabled list i = some j
  := by
  induction list generalizing i with
  | nil => simp at h
  | cons item list ih =>
    rw [skipDisabled]
    split_ifs with hdis
    · apply ih
      simpa [hdis] using h
    · exact ⟨i, rfl⟩

theorem skipDisabledBack_some {list : List ItemT} {i j : ℕ}
    (h : skipDisabledBack list i = some j) :
  ∃ item, list[j]? = some item ∧ item.disabled = false
  := by
  induction i with
  | zero => simp [skipDisabledBack] at h
  | succ i ih =>
    rw [skipDisabledBack] at h
    cases hitem : list[i]? with
    | none => simp [hitem] at h
    | some item =>
      simp only [hitem] at h
      split_ifs at h with hdis
      · apply ih h
      · obtain rfl := Option.some.inj h
        exact ⟨item, hitem, by simpa using hdis⟩

/-! ### The invariant -/

/-- What holds of every menu, shown or not: its current item is an enabled item of its own, and
the choice of a popup item is one of its entries. -/
structure Core (menus : List MenuT) (s : State E) : Prop where
  items : ∀ m r, s.currentItem m = some r → r.menu = m ∧ Enabled menus r
  choice : ∀ r entries, entriesAt menus r = some entries → s.choice r < entries.length

/-- The type of the menu shown. -/
def shown (menus : List MenuT) (s : State E) : Option MenuType :=
  s.currentMenu.bind (typeOf menus)

/-- The menu shown has a current item, and below a popup is a form with its current item. -/
structure Inv (menus : List MenuT) (s : State E) : Prop extends Core menus s where
  item : ∃ m r, s.currentMenu = some m ∧ s.currentItem m = some r
  popup : shown menus s = some .popup → ∃ m, s.popupSave = some m ∧ typeOf menus m = some .form
    ∧ s.currentItem m ≠ none ∧ s.popupItemSave = s.currentItem m

/-- The pointers of the form and of its menus are the same. -/
structure SameNav (s s' : State E) : Prop where
  currentMenu : s'.currentMenu = s.currentMenu
  currentItem : s'.currentItem = s.currentItem
  popupSave : s'.popupSave = s.popupSave
  popupItemSave : s'.popupItemSave = s.popupItemSave

theorem SameNav.refl (s : State E) :
  SameNav s s
  := ⟨rfl, rfl, rfl, rfl⟩

theorem SameNav.trans {s'' : State E} (h : SameNav s s') (h' : SameNav s' s'') :
  SameNav s s''
  := ⟨h'.1.trans h.1, h'.2.trans h.2, h'.3.trans h.3, h'.4.trans h.4⟩

theorem Core.congr (h : Core menus s) (hnav : s'.currentItem = s.currentItem)
    (hchoice : ∀ r entries, entriesAt menus r = some entries → s'.choice r < entries.length) :
  Core menus s'
  := by
  refine ⟨?_, hchoice⟩
  rw [hnav]
  exact h.items

theorem Core.update (h : Core menus s) {v : Option ItemRef}
    (hv : ∀ r, v = some r → r.menu = m ∧ Enabled menus r) :
  Core menus { s with currentItem := Function.update s.currentItem m v }
  := by
  refine ⟨?_, h.choice⟩
  intro m' r hr
  by_cases hm : m' = m
  · subst hm
    simp only [Function.update_self] at hr
    apply hv r hr
  · simp only [Function.update_of_ne hm] at hr
    apply h.items m' r hr

theorem Inv.congr (h : Inv menus s) (hnav : SameNav s s')
    (hchoice : ∀ r entries, entriesAt menus r = some entries → s'.choice r < entries.length) :
  Inv menus s'
  := by
  refine ⟨h.toCore.congr hnav.currentItem hchoice, ?_, ?_⟩
  · rw [hnav.currentMenu, hnav.currentItem]
    exact h.item
  · rw [shown, hnav.currentMenu, hnav.currentItem, hnav.popupSave, hnav.popupItemSave]
    exact h.popup

/-- The menu of an item is there. -/
theorem Enabled.typeOf (h : Enabled menus r) :
  ∃ t, Menu.typeOf menus r.menu = some t
  := by
  obtain ⟨item, hitem, -⟩ := h
  obtain ⟨menu, hmenu, -⟩ := Option.bind_eq_some_iff.mp hitem
  refine ⟨menu.type, ?_⟩
  rw [Menu.typeOf, hmenu, Option.map_some]

/-! ### Layout -/

theorem menuLayout_of_some (h : s.currentItem m ≠ none) :
  menuLayout menus m s = s
  := if_neg h

theorem Core.menuLayout (h : Core menus s) (m : MenuId) :
  Core menus (Menu.menuLayout menus m s)
  := by
  rw [Menu.menuLayout]
  split_ifs with hnone
  · apply h.update
    intro r hr
    obtain ⟨i, hi, rfl⟩ := Option.map_eq_some_iff.mp hr
    obtain ⟨-, item, hitem, hdis⟩ := skipDisabled_some hi
    refine ⟨rfl, item, ?_, hdis⟩
    rw [itemAt_eq]
    exact hitem
  · exact h

theorem menuLayout_ne_none (h : Selectable menus m) :
  (menuLayout menus m s).currentItem m ≠ none
  := by
  rw [menuLayout]
  split_ifs with hnone
  · obtain ⟨j, hj⟩ := skipDisabled_isSome (i := 0) h
    simp [hj]
  · exact hnone

@[simp]
theorem menuLayout_currentMenu :
  (menuLayout menus m s).currentMenu = s.currentMenu
  := by
  rw [menuLayout]
  split_ifs <;> rfl

@[simp]
theorem menuLayout_popupSave :
  (menuLayout menus m s).popupSave = s.popupSave
  := by
  rw [menuLayout]
  split_ifs <;> rfl

@[simp]
theorem menuLayout_popupItemSave :
  (menuLayout menus m s).popupItemSave = s.popupItemSave
  := by
  rw [menuLayout]
  split_ifs <;> rfl

theorem menuLayout_currentItem {m' : MenuId} (h : m' ≠ m) :
  (menuLayout menus m s).currentItem m' = s.currentItem m'
  := by
  rw [menuLayout]
  split_ifs
  · apply Function.update_of_ne h
  · rfl

/-! ### Loading and saving -/

/-- What each item of a menu keeps, a walk over the menu keeps. -/
theorem walk_invariant {P : State E → Prop} {f : ItemRef → ItemT → State E → State E} {k : ℕ}
    {menu : MenuT} (hmenu : menus[k]? = some menu)
    (hstep : ∀ r item s, itemAt menus r = some item → P s → P (f r item s)) (hs : P s) :
  P (walk f k menu s)
  := by
  have hitems : ∀ p ∈ menu.itemList.zipIdx, itemAt menus ⟨.listed k, p.2⟩ = some p.1 := by
    intro p hp
    rw [itemAt, menuAt, hmenu, Option.bind_some]
    exact List.mem_zipIdx_iff_getElem?.mp hp
  rw [walk]
  generalize menu.itemList.zipIdx = list at hitems
  induction list generalizing s with
  | nil => exact hs
  | cons p list ih =>
    rw [List.foldl_cons]
    apply ih
    · exact hstep _ _ _ (hitems p List.mem_cons_self) hs
    · intro q hq
      apply hitems q (List.mem_cons_of_mem p hq)

theorem load_sameNav (item : ItemT) :
  SameNav s (load ops r item s)
  := by
  rw [load]
  split <;> try split_ifs
  all_goals exact ⟨rfl, rfl, rfl, rfl⟩

theorem Core.load {item : ItemT} (hitem : itemAt menus r = some item) (h : Core menus s) :
  Core menus (Menu.load ops r item s)
  := by
  apply h.congr (load_sameNav item).currentItem
  rw [Menu.load]
  split
  case h_1 choice var entries hkind =>
    split_ifs
    · exact h.choice
    · intro r' entries' hr'
      by_cases hr : r' = r
      · subst hr
        rw [entriesAt_eq hitem hkind, Option.some.injEq] at hr'
        subst hr'
        simp only [Function.update_self]
        cases hload : cvarPopupLoad ops s.env var entries with
        | none => exact h.choice r' entries (entriesAt_eq hitem hkind)
        | some i =>
          obtain ⟨value, -, hi⟩ := Option.bind_eq_some_iff.mp hload
          obtain ⟨hlt, -⟩ := List.findIdx?_eq_some_iff_getElem.mp hi
          exact hlt
      · simp only [Function.update_of_ne hr]
        exact h.choice r' entries' hr'
  case h_2 =>
    split_ifs
    all_goals exact h.choice
  case h_3 => exact h.choice

/-- Saving changes the environment only. -/
theorem menuPerformSave_eq (ops : EnvOps E) (menus : List MenuT) (s : State E) :
  ∃ env, menuPerformSave ops menus s = { s with env := env }
  := by
  have hsave (r : ItemRef) (item : ItemT) (s : State E) :
      ∃ env, save ops r item s = { s with env := env } := by
    rw [save]
    split <;> try split_ifs
    all_goals exact ⟨_, rfl⟩
  have hwalk (k : ℕ) (menu : MenuT) (s : State E) :
      ∃ env, walk (save ops) k menu s = { s with env := env } := by
    rw [walk]
    generalize menu.itemList.zipIdx = list
    induction list generalizing s with
    | nil => exact ⟨s.env, rfl⟩
    | cons p list ih =>
      obtain ⟨env, henv⟩ := hsave ⟨.listed k, p.2⟩ p.1 s
      rw [List.foldl_cons, henv]
      apply ih
  rw [menuPerformSave]
  generalize menus.zipIdx = list
  induction list generalizing s with
  | nil => exact ⟨s.env, rfl⟩
  | cons p list ih =>
    obtain ⟨env, henv⟩ := hwalk p.2 p.1 s
    rw [List.foldl_cons, henv]
    apply ih

/-! ### Changing the menu -/

/-- A switch to a menu that is there. -/
theorem menuFormSwitchMenu_spec (ops : EnvOps E) (h : Core menus s) {k : ℕ}
    (hk : menuFormFindMenu menus name = some k) :
  Core menus (menuFormSwitchMenu ops menus name s)
    ∧ (menuFormSwitchMenu ops menus name s).currentMenu = some (.listed k)
    ∧ (Selectable menus (.listed k) →
      (menuFormSwitchMenu ops menus name s).currentItem (.listed k) ≠ none)
  := by
  rw [menuFormSwitchMenu, hk, Option.elim_some, menuFormSetMenu]
  set s₁ := (menus[k]?).elim s fun menu => walk (load ops) k menu s with hs₁
  have hcore : Core menus s₁ := by
    rw [hs₁]
    cases hmenu : menus[k]? with
    | none => exact h
    | some menu => exact walk_invariant hmenu (fun r item s hitem hs => hs.load hitem) h
  have hcore' : Core menus { s₁ with currentMenu := some (.listed k) } :=
    hcore.congr rfl hcore.choice
  exact ⟨hcore'.menuLayout _, menuLayout_currentMenu, menuLayout_ne_none⟩

theorem Leads.exists_find (h : Leads menus name) :
  ∃ k, menuFormFindMenu menus name = some k ∧ typeOf menus (.listed k) = some .form
  := Option.bind_eq_some_iff.mp h

/-- A popup is opened: the form below it is saved with its current item. -/
theorem menuFormPopup_spec (hwf : WellFormed menus) (h : Inv menus s)
    (hform : shown menus s = some .form) (hm : typeOf menus m = some .popup) :
  Inv menus (menuFormPopup menus m s)
    ∧ (menuFormPopup menus m s).currentMenu = some m
    ∧ (menuFormPopup menus m s).popupSave = s.currentMenu
    ∧ ∀ m' ∈ s.currentMenu, (menuFormPopup menus m s).currentItem m' = s.currentItem m'
  := by
  obtain ⟨m₀, r₀, hm₀, hr₀⟩ := h.item
  have hform₀ : typeOf menus m₀ = some .form := by
    rw [shown, hm₀, Option.bind_some] at hform
    exact hform
  have hne : m₀ ≠ m := by
    rintro rfl
    rw [hm] at hform₀
    simp at hform₀
  rw [menuFormPopup, if_pos hm, menuDraw, hm₀]
  set s₁ : State E := { s with
    popupSave := some m₀
    popupItemSave := (some m₀).bind s.currentItem
    currentMenu := some m } with hs₁
  have hcore : Core menus s₁ := h.toCore.congr rfl h.choice
  have hkeep : (menuLayout menus m s₁).currentItem m₀ = s.currentItem m₀ :=
    menuLayout_currentItem hne
  refine ⟨⟨hcore.menuLayout m, ?_, ?_⟩, menuLayout_currentMenu, menuLayout_popupSave, ?_⟩
  · obtain ⟨r, hr⟩ := Option.ne_none_iff_exists'.mp
      (menuLayout_ne_none (s := s₁) (hwf.popup_selectable hm).1)
    exact ⟨m, r, menuLayout_currentMenu, hr⟩
  · intro _
    refine ⟨m₀, menuLayout_popupSave, hform₀, ?_, ?_⟩
    · rw [hkeep, hr₀]
      simp
    · rw [hkeep, menuLayout_popupItemSave]
      rfl
  · intro m' hm'
    obtain rfl := Option.some.inj hm'
    exact hkeep

/-- A popup is left: the form below it is shown as it was. -/
theorem menuFormPopdown_eq (h : Inv menus s) (hpopup : shown menus s = some .popup) :
  menuFormPopdown menus s = { s with currentMenu := s.popupSave }
  := by
  obtain ⟨m, hsave, -, hne, hitem⟩ := h.popup hpopup
  have hupdate : Function.update s.currentItem m s.popupItemSave = s.currentItem := by
    rw [hitem, Function.update_eq_self]
  rw [shown] at hpopup
  rw [menuFormPopdown, if_pos hpopup, hsave]
  simp only
  rw [hupdate]
  exact menuLayout_of_some hne

theorem Inv.popdown (h : Inv menus s) (hpopup : shown menus s = some .popup) :
  Inv menus { s with currentMenu := s.popupSave }
  := by
  obtain ⟨m, hsave, hform, hne, -⟩ := h.popup hpopup
  obtain ⟨r, hr⟩ := Option.ne_none_iff_exists'.mp hne
  refine ⟨h.toCore.congr rfl h.choice, ⟨m, r, hsave, hr⟩, ?_⟩
  intro hpop
  rw [shown, hsave, Option.bind_some, hform] at hpop
  simp at hpop

theorem menuSetActiveItem_eq {nr : ℕ} (h : nr < (items menus m).length) :
  menuSetActiveItem menus m nr s
    = { s with currentItem := Function.update s.currentItem m (some ⟨m, nr⟩) }
  := if_pos h

/-- The current item of a menu other than the form below a popup changes. -/
theorem Inv.update (h : Inv menus s) (hr : r.menu = m ∧ Enabled menus r)
    (hm : shown menus s = some .popup → s.popupSave ≠ some m) :
  Inv menus { s with currentItem := Function.update s.currentItem m (some r) }
  := by
  have hcore : Core menus { s with currentItem := Function.update s.currentItem m (some r) } := by
    apply h.toCore.update
    rintro r' ⟨⟩
    exact hr
  obtain ⟨m₀, r₀, hm₀, hr₀⟩ := h.item
  refine ⟨hcore, ?_, ?_⟩
  · by_cases hne : m₀ = m
    · subst hne
      exact ⟨m₀, r, hm₀, Function.update_self _ _ _⟩
    · refine ⟨m₀, r₀, hm₀, ?_⟩
      simp only [Function.update_of_ne hne, hr₀]
  · intro hpopup
    obtain ⟨m₁, hsave, hform, hne, hitem⟩ := h.popup hpopup
    have hne₁ : m₁ ≠ m := by
      rintro rfl
      exact hm hpopup hsave
    refine ⟨m₁, hsave, hform, ?_, ?_⟩
    · simpa only [Function.update_of_ne hne₁] using hne
    · simpa only [Function.update_of_ne hne₁] using hitem

/-! ### A key -/

/-- The menu that a key switches to. -/
def leadsTo (menus : List MenuT) (s : State E) (key : Key) : Option (List Byte) := do
  let m ← s.currentMenu
  let menu ← menuAt menus m
  match key with
  | .abort => if menu.type = .popup then none else menu.parentMenu
  | .activate | .nextOption | .prevOption => do
    let c ← s.currentItem m
    let item ← itemAt menus c
    match item.kind with
    | .submenu name => some name
    | _ => none
  | _ => none

/-- The key switches to a menu that has only disabled items. -/
def OpensUnselectable (menus : List MenuT) (s : State E) (key : Key) : Prop :=
  ∃ name ∈ leadsTo menus s key, ∃ k ∈ menuFormFindMenu menus name, ¬ Selectable menus (.listed k)

instance (key : Key) : Decidable (OpensUnselectable menus s key) :=
  inferInstanceAs (Decidable (∃ name ∈ leadsTo menus s key, ∃ k ∈ menuFormFindMenu menus name,
    ¬ Selectable menus (.listed k)))

/-- What a key does to the menu shown: it stays, another form is shown, a popup is opened over a
form, or a popup is left. -/
inductive Outcome (menus : List MenuT) (s s' : State E) : Prop
  | stayed (m : MenuId) : s.currentMenu = some m → s'.currentMenu = some m →
      s'.popupSave = s.popupSave → (∀ m' ≠ m, s'.currentItem m' = s.currentItem m') →
      Outcome menus s s'
  | switched : shown menus s = some .form → shown menus s' = some .form → Outcome menus s s'
  | opened : shown menus s = some .form → shown menus s' = some .popup →
      s'.popupSave = s.currentMenu → (∀ m ∈ s.currentMenu, s'.currentItem m = s.currentItem m) →
      Outcome menus s s'
  | closed : shown menus s = some .popup → s'.currentMenu = s.popupSave →
      s'.currentItem = s.currentItem → Outcome menus s s'

theorem SameNav.outcome (h : SameNav s s') (hm : s.currentMenu = some m) :
  Outcome menus s s'
  := by
  apply Outcome.stayed m hm
  · rw [h.currentMenu, hm]
  · exact h.popupSave
  · intro m' _
    rw [h.currentItem]

/-- The form below a popup is another menu. -/
theorem Inv.popupSave_ne (h : Inv menus s) (hm : s.currentMenu = some m)
    (hpopup : shown menus s = some .popup) :
  s.popupSave ≠ some m
  := by
  obtain ⟨m', hsave, hform, -⟩ := h.popup hpopup
  intro heq
  rw [hsave] at heq
  obtain rfl := Option.some.inj heq
  rw [shown, hm, Option.bind_some, hform] at hpopup
  simp at hpopup

theorem moveTo_spec (h : Inv menus s) (hm : s.currentMenu = some m) (hr : s.currentItem m = some r)
    {next : Option ℕ} (hnext : ∀ i, next = some i → Enabled menus ⟨r.menu, i⟩) :
  Inv menus (moveTo m r next s) ∧ Outcome menus s (moveTo m r next s)
  := by
  cases next with
  | none => exact ⟨h, (SameNav.refl s).outcome hm⟩
  | some i =>
    have hmenu := (h.items m r hr).1
    rw [moveTo, Option.elim_some]
    refine ⟨h.update ⟨hmenu, hnext i rfl⟩ (h.popupSave_ne hm), ?_⟩
    refine Outcome.stayed m hm ?_ rfl ?_
    · exact hm
    · intro m' hm'
      apply Function.update_of_ne hm'

/-- A switch from a form to a form with an enabled item. -/
theorem menuFormSwitchMenu_outcome (h : Inv menus s) (hform : shown menus s = some .form)
    (hname : Leads menus name)
    (hsel : ∀ k ∈ menuFormFindMenu menus name, Selectable menus (.listed k)) :
  Inv menus (menuFormSwitchMenu ops menus name s)
    ∧ Outcome menus s (menuFormSwitchMenu ops menus name s)
  := by
  obtain ⟨k, hk, htype⟩ := hname.exists_find
  obtain ⟨hcore, hmenu, hitem⟩ := menuFormSwitchMenu_spec ops h.toCore hk
  obtain ⟨r, hr⟩ := Option.ne_none_iff_exists'.mp (hitem (hsel k hk))
  have hshown : shown menus (menuFormSwitchMenu ops menus name s) = some .form := by
    rw [shown, hmenu, Option.bind_some, htype]
  refine ⟨⟨hcore, ⟨_, r, hmenu, hr⟩, ?_⟩, .switched hform hshown⟩
  intro hpopup
  rw [hshown] at hpopup
  simp at hpopup

theorem menuFormPopup_outcome (hwf : WellFormed menus) (h : Inv menus s)
    (hform : shown menus s = some .form) (hm : typeOf menus m = some .popup) :
  Inv menus (menuFormPopup menus m s) ∧ Outcome menus s (menuFormPopup menus m s)
  := by
  obtain ⟨hinv, hmenu, hsave, hitem⟩ := menuFormPopup_spec hwf h hform hm
  refine ⟨hinv, .opened hform ?_ hsave hitem⟩
  rw [shown, hmenu, Option.bind_some, hm]

theorem typeOf_popupOf {item : ItemT} {choice : ℕ} {var : List Byte} {entries : List (List Byte)}
    (hitem : itemAt menus r = some item) (hkind : item.kind = .popup choice var entries) :
  typeOf menus (.popupOf r.menu r.nr) = some .popup
    ∧ (items menus (.popupOf r.menu r.nr)).length = entries.length
  := by
  obtain ⟨menu, hmenu, hi⟩ := Option.bind_eq_some_iff.mp hitem
  have hat : menuAt menus (.popupOf r.menu r.nr) = some (popupMenu r entries) := by
    simp [menuAt, hmenu, hi, hkind]
  refine ⟨by rw [typeOf, hat]; rfl, ?_⟩
  rw [items_eq hat]
  simp [popupMenu]

/-- `KEY_ACTIVATE` on a popup item opens its popup at the current choice. -/
theorem itemtypePopupInvoke_activate (hwf : WellFormed menus) (h : Inv menus s)
    (hform : shown menus s = some .form) {item : ItemT} {choice : ℕ} {var : List Byte}
    {entries : List (List Byte)} (hitem : itemAt menus r = some item)
    (hkind : item.kind = .popup choice var entries) {p : Press} (hp : p.key = .activate) :
  Inv menus (itemtypePopupInvoke menus r entries p s)
    ∧ Outcome menus s (itemtypePopupInvoke menus r entries p s)
  := by
  obtain ⟨htype, hlen⟩ := typeOf_popupOf hitem hkind
  have hchoice := h.choice r entries (entriesAt_eq hitem hkind)
  rw [← hlen] at hchoice
  simp only [itemtypePopupInvoke, hp, menuSetActiveItem_eq hchoice]
  set m' := MenuId.popupOf r.menu r.nr
  set s₁ : State E :=
    { s with currentItem := Function.update s.currentItem m' (some ⟨m', s.choice r⟩) } with hs₁
  have hinv : Inv menus s₁ := by
    apply h.update ⟨rfl, (hwf.popup_selectable htype).2 _ hchoice⟩
    rw [hform]
    simp
  obtain ⟨hinv', hmenu, hsave, hkeep⟩ := menuFormPopup_spec hwf hinv hform htype
  refine ⟨hinv', .opened hform ?_ hsave ?_⟩
  · rw [shown, hmenu, Option.bind_some, htype]
  · intro m hm
    rw [hkeep m hm]
    apply Function.update_of_ne
    rintro rfl
    rw [Option.mem_def] at hm
    rw [shown, hm, Option.bind_some, htype] at hform
    simp at hform

/-- The choice of an item becomes another of its entries. -/
theorem Core.update_choice (h : Core menus s) {i : ℕ}
    (hi : ∀ entries ∈ entriesAt menus r, i < entries.length) :
  ∀ r' entries, entriesAt menus r' = some entries →
    Function.update s.choice r i r' < entries.length
  := by
  intro r' entries hr'
  by_cases hr : r' = r
  · subst hr
    rw [Function.update_self]
    apply hi entries hr'
  · rw [Function.update_of_ne hr]
    apply h.choice r' entries hr'

theorem myLeaveFunc_sameNav (ops : EnvOps E) (arg : BootExit) (s : State E) :
  SameNav s (myLeaveFunc ops arg s) ∧ (myLeaveFunc ops arg s).choice = s.choice
  := by
  cases arg
  all_goals exact ⟨⟨rfl, rfl, rfl, rfl⟩, rfl⟩

/-- A function item leaves the pointers as they are. -/
theorem itemtypeFuncInvoke_spec (hwf : WellFormed menus) (h : Inv menus s) {item : ItemT}
    {func : Func} (hitem : itemAt menus r = some item) (hkind : item.kind = .func func)
    (p : Press) :
  SameNav s (itemtypeFuncInvoke ops func p s) ∧ Inv menus (itemtypeFuncInvoke ops func p s)
  := by
  have hitem' := hwf.itemAt hitem
  rw [ItemT.WellFormed, hkind] at hitem'
  unfold itemtypeFuncInvoke
  split
  · have hnav (i : ℕ) (r' : ItemRef) :
        SameNav s { s with choice := Function.update s.choice r' i } := ⟨rfl, rfl, rfl, rfl⟩
    exact ⟨hnav _ _, h.congr (hnav _ _) (h.update_choice hitem')⟩
  · have hnav (arg : Exit) : SameNav s { s with leaveSelect := some arg } := ⟨rfl, rfl, rfl, rfl⟩
    exact ⟨hnav _, h.congr (hnav _) h.choice⟩
  · obtain ⟨hnav, hchoice⟩ := myLeaveFunc_sameNav ops _ s
    exact ⟨hnav, h.congr hnav fun r' => hchoice ▸ h.choice r'⟩
  · exact ⟨.refl s, h⟩

theorem itemtypePopupInvoke_other (h : Inv menus s) {item : ItemT} {choice : ℕ} {var : List Byte}
    {entries : List (List Byte)} (hitem : itemAt menus r = some item)
    (hkind : item.kind = .popup choice var entries) {p : Press} (hp : p.key ≠ .activate) :
  SameNav s (itemtypePopupInvoke menus r entries p s)
    ∧ Inv menus (itemtypePopupInvoke menus r entries p s)
  := by
  have hentries := entriesAt_eq hitem hkind
  have hchoice := h.choice r entries hentries
  have hupdate (i : ℕ) (hi : i < entries.length) :
      SameNav s { s with choice := Function.update s.choice r i }
        ∧ Inv menus { s with choice := Function.update s.choice r i } := by
    have hnav : SameNav s { s with choice := Function.update s.choice r i } := ⟨rfl, rfl, rfl, rfl⟩
    refine ⟨hnav, h.congr hnav (h.update_choice ?_)⟩
    intro entries' hentries'
    rw [hentries, Option.mem_some_iff] at hentries'
    rwa [← hentries']
  rw [itemtypePopupInvoke]
  split
  case h_1 hkey => exact absurd hkey hp
  case h_2 =>
    split_ifs with hlt
    · exact hupdate _ hlt
    · exact ⟨.refl s, h⟩
  case h_3 =>
    split_ifs
    · exact hupdate _ (by omega)
    · exact ⟨.refl s, h⟩
  case h_4 => exact ⟨.refl s, h⟩

/-- The current item of a form handles a key. -/
theorem invoke_spec (hwf : WellFormed menus) (h : Inv menus s) (hform : shown menus s = some .form)
    {item : ItemT} (hitem : itemAt menus r = some item) (hm : s.currentMenu = some m) (p : Press)
    (hsel : ∀ name, item.kind = .submenu name → p.key ∈ [.activate, .nextOption, .prevOption] →
      ∀ k ∈ menuFormFindMenu menus name, Selectable menus (.listed k)) :
  Inv menus (invoke ops menus r item p s) ∧ Outcome menus s (invoke ops menus r item p s)
  := by
  have hstay {s' : State E} (hs' : SameNav s s' ∧ Inv menus s') :
      Inv menus s' ∧ Outcome menus s s' := ⟨hs'.2, hs'.1.outcome hm⟩
  cases hkind : item.kind with
  | func func =>
    simp only [invoke, hkind]
    exact hstay (itemtypeFuncInvoke_spec hwf h hitem hkind p)
  | submenu name =>
    have hleads := hwf.itemAt hitem
    rw [ItemT.WellFormed, hkind] at hleads
    simp only [invoke, hkind, itemtypeSubmenuInvoke]
    split
    case h_4 => exact hstay ⟨.refl s, h⟩
    all_goals
      rename_i hkey
      exact menuFormSwitchMenu_outcome h hform hleads (hsel name hkind (by simp [hkey]))
  | popup choice var entries =>
    simp only [invoke, hkind]
    by_cases hp : p.key = .activate
    · exact itemtypePopupInvoke_activate hwf h hform hitem hkind hp
    · exact hstay (itemtypePopupInvoke_other h hitem hkind hp)
  | stringCvar var defValue =>
    simp only [invoke, hkind, itemtypeStringCvarInvoke]
    split
    · have hnav : SameNav s
          { s with
            value := Function.update s.value r (edited (s.value r) p.typed)
            overrun := s.overrun || decide (¬ EditFits (s.value r) p.typed) } :=
        ⟨rfl, rfl, rfl, rfl⟩
      exact hstay ⟨hnav, h.congr hnav h.choice⟩
    · exact hstay ⟨.refl s, h⟩
  | label =>
    simp only [invoke, hkind]
    exact hstay ⟨.refl s, h⟩

/-- Leaving changes the environment only. -/
theorem leave_eq (ops : EnvOps E) (menus : List MenuT) (s : State E) :
  ∃ env saved, (leave ops menus s).1 = { s with env := env, saved := saved }
  := by
  obtain ⟨env, henv⟩ := menuPerformSave_eq ops menus s
  rw [leave]
  split
  case h_3 =>
    rw [henv]
    exact ⟨_, _, rfl⟩
  case h_4 =>
    rw [henv]
    exact ⟨_, _, rfl⟩
  all_goals exact ⟨_, _, rfl⟩

/-- The default case of `menu_handle_single_key`. -/
theorem handle_default {menu : MenuT} {item : ItemT} {p : Press} (hm : s.currentMenu = some m)
    (hmenu : menuAt menus m = some menu) (hr : s.currentItem m = some r)
    (hitem : itemAt menus r = some item) (hp : p.key ∉ [.nextItem, .prevItem, .abort]) :
  menuHandleSingleKey ops menus s p
    = if p.key = .activate ∧ menu.type = .popup then
        some (leave ops menus (menuFormPopdown menus (invoke ops menus r item p s)))
      else some (invoke ops menus r item p s, true)
  := by
  simp only [menuHandleSingleKey, hm, hmenu, Option.bind_eq_bind, Option.bind_some]
  split
  case h_4 => simp only [hr, hitem, Option.elim_some]
  all_goals
    rename_i hkey
    simp [hkey] at hp

/-- The current item of a popup handles a key. -/
theorem handle_popup (hwf : WellFormed menus) (h : Inv menus s)
    (hpopup : shown menus s = some .popup) {menu : MenuT} {item : ItemT} {p : Press}
    (hm : s.currentMenu = some m) (hmenu : menuAt menus m = some menu)
    (hr : s.currentItem m = some r) (hitem : itemAt menus r = some item)
    (hp : p.key ∉ [.nextItem, .prevItem, .abort]) :
  ∃ s' b, menuHandleSingleKey ops menus s p = some (s', b) ∧ Inv menus s' ∧ Outcome menus s s'
  := by
  have htype : menu.type = .popup := by
    simpa only [shown, hm, Option.bind_some, typeOf, hmenu, Option.map_some, Option.some.injEq]
      using hpopup
  have hmem : item ∈ menu.itemList := by
    rw [itemAt_eq, (h.items m r hr).1, items_eq hmenu] at hitem
    exact List.mem_of_getElem? hitem
  obtain ⟨func, hfunc⟩ := ((hwf.menuAt hmenu).popup htype).2 item hmem
  have hkind : item.kind = .func func := by
    rw [hfunc]
    rfl
  have hinvoke : invoke ops menus r item p s = itemtypeFuncInvoke ops func p s := by
    simp only [invoke, hkind]
  obtain ⟨hnav, hinv⟩ : SameNav s (itemtypeFuncInvoke ops func p s)
      ∧ Inv menus (itemtypeFuncInvoke ops func p s) :=
    itemtypeFuncInvoke_spec hwf h hitem hkind p
  rw [handle_default hm hmenu hr hitem hp, hinvoke]
  set s₁ := itemtypeFuncInvoke ops func p s
  have hpopup₁ : shown menus s₁ = some .popup := by
    rw [shown, hnav.currentMenu]
    exact hpopup
  split_ifs
  · obtain ⟨env, saved, hleave⟩ :=
      leave_eq ops menus (menuFormPopdown menus s₁)
    rw [menuFormPopdown_eq hinv hpopup₁] at hleave ⊢
    generalize leave ops menus { s₁ with currentMenu := s₁.popupSave } = left at hleave ⊢
    obtain ⟨s', b⟩ := left
    simp only at hleave
    refine ⟨s', b, rfl, ?_, ?_⟩
    · rw [hleave]
      exact (hinv.popdown hpopup₁).congr ⟨rfl, rfl, rfl, rfl⟩ hinv.choice
    · rw [hleave]
      exact .closed hpopup hnav.popupSave hnav.currentItem
  · exact ⟨s₁, true, rfl, hinv, hnav.outcome hm⟩

/-- **One key.**  In a state of the invariant every key is handled, and the invariant holds again
unless the key opens a menu without an enabled item. -/
theorem handle_spec (ops : EnvOps E) (hwf : WellFormed menus) (h : Inv menus s) (p : Press)
    (hp : ¬ OpensUnselectable menus s p.key) :
  ∃ s' b, menuHandleSingleKey ops menus s p = some (s', b) ∧ Inv menus s' ∧ Outcome menus s s'
  := by
  obtain ⟨m, r, hm, hr⟩ := h.item
  obtain ⟨hrm, item, hitem, hdis⟩ := h.items m r hr
  obtain ⟨menu, hmenu, hi⟩ := Option.bind_eq_some_iff.mp hitem
  rw [hrm] at hmenu
  have hshown : shown menus s = some menu.type := by
    rw [shown, hm, Option.bind_some, typeOf, hmenu, Option.map_some]
  have hsel (name : List Byte) (hname : leadsTo menus s p.key = some name) :
      ∀ k ∈ menuFormFindMenu menus name, Selectable menus (.listed k) := by
    intro k hk
    by_contra hnot
    exact hp ⟨name, hname, k, hk, hnot⟩
  have hleads : leadsTo menus s p.key = (match p.key with
      | .abort => if menu.type = .popup then none else menu.parentMenu
      | .activate | .nextOption | .prevOption =>
        match item.kind with
        | .submenu name => some name
        | _ => none
      | _ => none) := by
    simp only [leadsTo, hm, hmenu, hr, hitem, Option.bind_eq_bind, Option.bind_some]
  by_cases hmoves : p.key ∉ [.nextItem, .prevItem, .abort]
  · cases htype : menu.type with
    | popup =>
      rw [htype] at hshown
      exact handle_popup hwf h hshown hm hmenu hr hitem hmoves
    | form =>
      rw [htype] at hshown
      rw [handle_default hm hmenu hr hitem hmoves, if_neg (by simp [htype])]
      refine ⟨_, true, rfl, ?_⟩
      apply invoke_spec hwf h hshown hitem hm
      intro name hname hkey
      apply hsel
      rw [hleads]
      simp only [List.mem_cons, List.not_mem_nil, or_false] at hkey
      obtain hkey | hkey | hkey := hkey
      all_goals simp only [hkey, hname]
  · simp only [List.mem_cons, List.not_mem_nil, or_false, not_not] at hmoves
    simp only [menuHandleSingleKey, hm, hmenu, Option.bind_eq_bind, Option.bind_some]
    obtain hkey | hkey | hkey := hmoves
    · simp only [hkey, hr, Option.bind_some]
      refine ⟨_, true, rfl, ?_⟩
      apply moveTo_spec h hm hr
      intro i hnext
      obtain ⟨hle, item', hitem', hdis'⟩ := skipDisabled_some hnext
      refine ⟨item', ?_, hdis'⟩
      rw [itemAt_eq, ← hitem', List.getElem?_drop]
      congr 1
      simp only
      omega
    · simp only [hkey, hr, Option.bind_some]
      refine ⟨_, true, rfl, ?_⟩
      apply moveTo_spec h hm hr
      intro i hnext
      obtain ⟨item', hitem', hdis'⟩ := skipDisabledBack_some hnext
      refine ⟨item', ?_, hdis'⟩
      rw [itemAt_eq, ← hitem']
    · rw [hkey] at hleads hsel
      simp only [hkey]
      split_ifs with htype
      · rw [htype] at hshown
        rw [menuFormPopdown_eq h hshown]
        exact ⟨_, true, rfl, h.popdown hshown, .closed hshown rfl rfl⟩
      · have hform : shown menus s = some .form := by
          rw [hshown]
          cases htype' : menu.type with
          | form => rfl
          | popup => exact absurd htype' htype
        cases hparent : menu.parentMenu with
        | some parent =>
          refine ⟨_, true, rfl, ?_⟩
          apply menuFormSwitchMenu_outcome h hform ((hwf.menuAt hmenu).parent parent hparent)
          apply hsel
          rw [hleads]
          simp only [if_neg htype, hparent]
        | none =>
          refine ⟨_, true, rfl, ?_⟩
          rw [menuFormPopupName]
          cases menuFormFindMenu menus (ascii "Exit Menu") with
          | none => exact ⟨h, (SameNav.refl s).outcome hm⟩
          | some k =>
            rw [Option.elim_some]
            by_cases hpopup : typeOf menus (.listed k) = some .popup
            · exact menuFormPopup_outcome hwf h hform hpopup
            · rw [menuFormPopup, if_neg hpopup]
              exact ⟨h, (SameNav.refl s).outcome hm⟩

/-- A key that leads to a menu switches to it. -/
theorem handle_leads (ops : EnvOps E) (hwf : WellFormed menus) (h : Inv menus s) {p : Press}
    (hname : leadsTo menus s p.key = some name) :
  Leads menus name ∧ shown menus s = some .form
    ∧ menuHandleSingleKey ops menus s p = some (menuFormSwitchMenu ops menus name s, true)
  := by
  obtain ⟨m, r, hm, hr⟩ := h.item
  obtain ⟨hrm, item, hitem, -⟩ := h.items m r hr
  obtain ⟨menu, hmenu, hi⟩ := Option.bind_eq_some_iff.mp hitem
  rw [hrm] at hmenu
  have hshown (htype : menu.type ≠ .popup) : shown menus s = some .form := by
    rw [shown, hm, Option.bind_some, typeOf, hmenu, Option.map_some]
    cases htype' : menu.type with
    | form => rfl
    | popup => exact absurd htype' htype
  simp only [leadsTo, hm, hmenu, hr, hitem, Option.bind_eq_bind, Option.bind_some] at hname
  by_cases hkey : p.key = .abort
  · simp only [hkey] at hname
    split_ifs at hname with htype
    refine ⟨(hwf.menuAt hmenu).parent name hname, hshown htype, ?_⟩
    simp only [menuHandleSingleKey, hm, hmenu, Option.bind_eq_bind, Option.bind_some, hkey,
      if_neg htype, hname]
  · have hkind : item.kind = .submenu name ∧ p.key ∈ [.activate, .nextOption, .prevOption] := by
      cases hk : p.key <;> cases hi : item.kind <;> simp_all
    have htype : menu.type ≠ .popup := by
      intro htype
      obtain ⟨func, hfunc⟩ := ((hwf.menuAt hmenu).popup htype).2 item (List.mem_of_getElem? hi)
      rw [hfunc] at hkind
      simp [itemtypeFuncAlloc] at hkind
    have hleads := hwf.itemAt hitem
    rw [ItemT.WellFormed, hkind.1] at hleads
    refine ⟨hleads, hshown htype, ?_⟩
    have hother : p.key ∉ [.nextItem, .prevItem, .abort] := by
      cases hk : p.key <;> simp_all
    have hinvoke : invoke ops menus r item p s = menuFormSwitchMenu ops menus name s := by
      simp only [invoke, hkind.1]
      cases hk : p.key <;> simp_all [itemtypeSubmenuInvoke]
    rw [handle_default hm hmenu hr hitem hother, if_neg (by simp [htype]), hinvoke]

/-- A menu without an enabled item is left without a current item. -/
theorem handle_opens (ops : EnvOps E) (hwf : WellFormed menus) (h : Inv menus s) {p : Press}
    (hp : OpensUnselectable menus s p.key) :
  ∃ s' k, menuHandleSingleKey ops menus s p = some (s', true)
    ∧ s'.currentMenu = some (.listed k) ∧ s'.currentItem (.listed k) = none
  := by
  obtain ⟨name, hname, k, hk, hsel⟩ := hp
  obtain ⟨-, -, hhandle⟩ := handle_leads ops hwf h hname
  obtain ⟨hcore, hmenu, -⟩ := menuFormSwitchMenu_spec ops h.toCore hk
  refine ⟨_, k, hhandle, hmenu, ?_⟩
  by_contra hne
  obtain ⟨r, hr⟩ := Option.ne_none_iff_exists'.mp hne
  obtain ⟨hrm, henabled⟩ := hcore.items _ r hr
  apply hsel
  rw [← hrm]
  exact henabled.selectable

/-! ### Strings -/

/-- The strings of the items are the same. -/
structure SameText (s s' : State E) : Prop where
  value : s'.value = s.value
  overrun : s'.overrun = s.overrun
  loaded : s'.loaded = s.loaded

theorem SameText.refl (s : State E) :
  SameText s s
  := ⟨rfl, rfl, rfl⟩

theorem SameText.trans {s'' : State E} (h : SameText s s') (h' : SameText s' s'') :
  SameText s s''
  := ⟨h'.1.trans h.1, h'.2.trans h.2, h'.3.trans h.3⟩

theorem menuLayout_sameText (m : MenuId) (s : State E) :
  SameText s (menuLayout menus m s)
  := by
  rw [menuLayout]
  split_ifs
  all_goals exact ⟨rfl, rfl, rfl⟩

theorem menuFormPopup_sameText (m : MenuId) (s : State E) :
  SameText s (menuFormPopup menus m s)
  := by
  rw [menuFormPopup]
  split_ifs
  · apply SameText.trans _ (menuLayout_sameText m _)
    exact ⟨rfl, rfl, rfl⟩
  · exact .refl s

theorem menuFormPopupName_sameText (name : List Byte) (s : State E) :
  SameText s (menuFormPopupName menus name s)
  := by
  rw [menuFormPopupName]
  cases menuFormFindMenu menus name with
  | none => exact .refl s
  | some k => exact menuFormPopup_sameText _ s

theorem menuFormPopdown_sameText (s : State E) :
  SameText s (menuFormPopdown menus s)
  := by
  rw [menuFormPopdown]
  split_ifs
  · cases s.popupSave with
    | none => exact ⟨rfl, rfl, rfl⟩
    | some m =>
      apply SameText.trans _ (menuLayout_sameText m _)
      exact ⟨rfl, rfl, rfl⟩
  · exact .refl s

theorem moveTo_sameText (m : MenuId) (c : ItemRef) (next : Option ℕ) (s : State E) :
  SameText s (moveTo m c next s)
  := by
  cases next
  all_goals exact ⟨rfl, rfl, rfl⟩

theorem itemtypePopupInvoke_sameText (r : ItemRef) (entries : List (List Byte)) (p : Press)
    (s : State E) :
  SameText s (itemtypePopupInvoke menus r entries p s)
  := by
  rw [itemtypePopupInvoke]
  split
  case h_1 =>
    refine SameText.trans ?_ (menuFormPopup_sameText _ _)
    rw [menuSetActiveItem]
    split_ifs
    all_goals exact ⟨rfl, rfl, rfl⟩
  case h_4 => exact .refl s
  all_goals
    split_ifs
    all_goals exact ⟨rfl, rfl, rfl⟩

theorem itemtypeFuncInvoke_sameText (ops : EnvOps E) (func : Func) (p : Press) (s : State E) :
  SameText s (itemtypeFuncInvoke ops func p s)
  := by
  unfold itemtypeFuncInvoke
  split
  case h_3 arg _ =>
    cases arg
    all_goals exact ⟨rfl, rfl, rfl⟩
  all_goals exact ⟨rfl, rfl, rfl⟩

theorem leave_sameText (ops : EnvOps E) (menus : List MenuT) (s : State E) :
  SameText s (leave ops menus s).1
  := by
  obtain ⟨env, saved, hleave⟩ := leave_eq ops menus s
  rw [hleave]
  exact ⟨rfl, rfl, rfl⟩

/-- The item has not been loaded, and it has no room for the string that will be. -/
def TooLong (ops : EnvOps E) (s : State E) (r : ItemRef) (item : ItemT) : Prop :=
  match item.kind with
  | .stringCvar var defValue =>
    s.loaded r = false ∧ valueSize ≤ (cvarStringLoad ops s.env var defValue).length
  | _ => False

instance (r : ItemRef) : (item : ItemT) → Decidable (TooLong ops s r item)
  | ⟨.stringCvar _ _, _⟩ => inferInstanceAs (Decidable (_ ∧ _))
  | ⟨.func _, _⟩ => .isFalse id
  | ⟨.submenu _, _⟩ => .isFalse id
  | ⟨.popup _ _ _, _⟩ => .isFalse id
  | ⟨.label, _⟩ => .isFalse id

/-- A string is edited, and there is no room for what is typed. -/
def EditOverruns (s : State E) (p : Press) (r : ItemRef) (item : ItemT) : Prop :=
  match item.kind with
  | .stringCvar _ _ => p.key = .activate ∧ ¬ EditFits (s.value r) p.typed
  | _ => False

instance (p : Press) (r : ItemRef) : (item : ItemT) → Decidable (EditOverruns s p r item)
  | ⟨.stringCvar _ _, _⟩ => inferInstanceAs (Decidable (_ ∧ _))
  | ⟨.func _, _⟩ => .isFalse id
  | ⟨.submenu _, _⟩ => .isFalse id
  | ⟨.popup _ _ _, _⟩ => .isFalse id
  | ⟨.label, _⟩ => .isFalse id

/-- The key shows a menu with a string that is too long. -/
def CopiesTooMuch (ops : EnvOps E) (menus : List MenuT) (s : State E) (p : Press) : Prop :=
  ∃ name ∈ leadsTo menus s p.key, ∃ k ∈ menuFormFindMenu menus name,
    ∃ q ∈ (items menus (.listed k)).zipIdx, TooLong ops s ⟨.listed k, q.2⟩ q.1

instance (p : Press) : Decidable (CopiesTooMuch ops menus s p) :=
  inferInstanceAs (Decidable (∃ name ∈ leadsTo menus s p.key, ∃ k ∈ menuFormFindMenu menus name,
    ∃ q ∈ (items menus (.listed k)).zipIdx, TooLong ops s ⟨.listed k, q.2⟩ q.1))

/-- The current item is a string, and there is no room for what is typed. -/
def TypesTooMuch (menus : List MenuT) (s : State E) (p : Press) : Prop :=
  ∃ m ∈ s.currentMenu, ∃ r ∈ s.currentItem m, ∃ item ∈ itemAt menus r, EditOverruns s p r item

instance (p : Press) : Decidable (TypesTooMuch menus s p) :=
  inferInstanceAs (Decidable (∃ m ∈ s.currentMenu, ∃ r ∈ s.currentItem m, ∃ item ∈ itemAt menus r,
    EditOverruns s p r item))

/-- The key overruns a string. -/
def Overruns (ops : EnvOps E) (menus : List MenuT) (s : State E) (p : Press) : Prop :=
  CopiesTooMuch ops menus s p ∨ TypesTooMuch menus s p

instance (p : Press) : Decidable (Overruns ops menus s p) :=
  inferInstanceAs (Decidable (_ ∨ _))

theorem load_spec (ops : EnvOps E) (r : ItemRef) (item : ItemT) (s : State E) :
  ((load ops r item s).overrun = true ↔ s.overrun = true ∨ TooLong ops s r item)
    ∧ (load ops r item s).env = s.env
    ∧ ∀ r' ≠ r, (load ops r item s).loaded r' = s.loaded r'
  := by
  obtain ⟨kind, disabled⟩ := item
  cases kind with
  | popup choice var entries =>
    rw [load]
    dsimp only
    split_ifs
    · exact ⟨(or_iff_left id).symm, rfl, fun _ _ => rfl⟩
    · exact ⟨(or_iff_left id).symm, rfl, fun r' hr => Function.update_of_ne hr _ _⟩
  | stringCvar var defValue =>
    rw [load, TooLong]
    dsimp only
    split_ifs with hloaded
    · refine ⟨(or_iff_left ?_).symm, rfl, fun _ _ => rfl⟩
      rintro ⟨hnot, -⟩
      rw [hloaded] at hnot
      cases hnot
    · refine ⟨?_, rfl, fun r' hr => Function.update_of_ne hr _ _⟩
      rw [Bool.or_eq_true, decide_eq_true_eq, Bool.not_eq_true] at *
      rw [hloaded]
      exact or_congr_right (and_iff_right rfl).symm
  | _ => exact ⟨(or_iff_left id).symm, rfl, fun _ _ => rfl⟩

/-- Another item is loaded as before. -/
theorem tooLong_load {r' : ItemRef} (hr : r' ≠ r) (item item' : ItemT) :
  TooLong ops (load ops r item s) r' item' ↔ TooLong ops s r' item'
  := by
  obtain ⟨-, henv, hloaded⟩ := load_spec ops r item s
  rw [TooLong, TooLong, henv, hloaded r' hr]

theorem walk_load_overrun (ops : EnvOps E) (k n : ℕ) (list : List ItemT) (s : State E) :
  ((list.zipIdx n).foldl (fun s p => load ops ⟨.listed k, p.2⟩ p.1 s) s).overrun = true
    ↔ s.overrun = true ∨ ∃ q ∈ list.zipIdx n, TooLong ops s ⟨.listed k, q.2⟩ q.1
  := by
  induction list generalizing n s with
  | nil => simp
  | cons item list ih =>
    have hrest : ∀ q ∈ list.zipIdx (n + 1),
        TooLong ops (load ops ⟨.listed k, n⟩ item s) ⟨.listed k, q.2⟩ q.1
          ↔ TooLong ops s ⟨.listed k, q.2⟩ q.1 := by
      intro q hq
      apply tooLong_load
      have hle := List.le_snd_of_mem_zipIdx hq
      intro heq
      have hnr := congrArg ItemRef.nr heq
      dsimp only at hnr
      omega
    rw [List.zipIdx_cons, List.foldl_cons, ih, (load_spec ops _ item s).1, or_assoc]
    apply or_congr_right
    constructor
    · rintro (hitem | ⟨q, hq, hlong⟩)
      · exact ⟨_, List.mem_cons_self, hitem⟩
      · exact ⟨q, List.mem_cons_of_mem _ hq, (hrest q hq).mp hlong⟩
    · rintro ⟨q, hq, hlong⟩
      obtain rfl | hq := List.mem_cons.mp hq
      · exact .inl hlong
      · exact .inr ⟨q, hq, (hrest q hq).mpr hlong⟩

/-- A switch to a menu loads its strings. -/
theorem menuFormSwitchMenu_overrun (ops : EnvOps E) {k : ℕ}
    (hk : menuFormFindMenu menus name = some k) (s : State E) :
  (menuFormSwitchMenu ops menus name s).overrun = true
    ↔ s.overrun = true
      ∨ ∃ q ∈ (items menus (.listed k)).zipIdx, TooLong ops s ⟨.listed k, q.2⟩ q.1
  := by
  obtain ⟨menu, hmenu⟩ : ∃ menu, menus[k]? = some menu := by
    obtain ⟨hlt, -⟩ := List.findIdx?_eq_some_iff_getElem.mp hk
    exact ⟨_, List.getElem?_eq_getElem hlt⟩
  have hitems : items menus (.listed k) = menu.itemList := items_eq hmenu
  let s₁ : State E := { walk (load ops) k menu s with currentMenu := some (.listed k) }
  have htext : SameText s₁ (menuLayout menus (.listed k) s₁) := menuLayout_sameText _ s₁
  rw [menuFormSwitchMenu, hk, Option.elim_some, menuFormSetMenu, hmenu, Option.elim_some, hitems,
    ← walk_load_overrun ops k 0 menu.itemList s]
  exact iff_of_eq (congrArg (· = true) htext.overrun)

theorem invoke_overrun (ops : EnvOps E) (menus : List MenuT) (s : State E) {item : ItemT}
    {p : Press} (h : ∀ name, item.kind = .submenu name →
      p.key ∉ [.activate, .nextOption, .prevOption]) :
  (invoke ops menus r item p s).overrun = true ↔ s.overrun = true ∨ EditOverruns s p r item
  := by
  obtain ⟨kind, disabled⟩ := item
  cases kind with
  | func func =>
    rw [invoke, (itemtypeFuncInvoke_sameText ops func p s).overrun]
    exact (or_iff_left id).symm
  | submenu name =>
    have hkey := h name rfl
    simp only [invoke, itemtypeSubmenuInvoke]
    split
    case h_4 => exact (or_iff_left id).symm
    all_goals
      rename_i hp
      simp [hp] at hkey
  | popup choice var entries =>
    rw [invoke, (itemtypePopupInvoke_sameText r entries p s).overrun]
    exact (or_iff_left id).symm
  | stringCvar var defValue =>
    simp only [invoke, itemtypeStringCvarInvoke, EditOverruns]
    split
    case h_1 hkey => simp only [hkey, true_and, Bool.or_eq_true, decide_eq_true_eq]
    case h_2 hkey => exact (or_iff_left fun hp => hkey hp.1).symm
  | label => exact (or_iff_left id).symm

section Handle

variable {menu : MenuT} {item : ItemT} {p : Press}

theorem leadsTo_eq (hm : s.currentMenu = some m) (hmenu : menuAt menus m = some menu)
    (hr : s.currentItem m = some r) (hitem : itemAt menus r = some item) (key : Key) :
  leadsTo menus s key = match key with
    | .abort => if menu.type = .popup then none else menu.parentMenu
    | .activate | .nextOption | .prevOption =>
      match item.kind with
      | .submenu name => some name
      | _ => none
    | _ => none
  := by
  simp only [leadsTo, hm, hmenu, hr, hitem, Option.bind_eq_bind, Option.bind_some]

/-- A key that leads to a menu types nothing. -/
theorem not_editOverruns_of_leads (hm : s.currentMenu = some m)
    (hmenu : menuAt menus m = some menu) (hr : s.currentItem m = some r)
    (hitem : itemAt menus r = some item) (hleads : leadsTo menus s p.key = some name) :
  ¬ EditOverruns s p r item
  := by
  rw [leadsTo_eq hm hmenu hr hitem] at hleads
  obtain ⟨kind, disabled⟩ := item
  cases kind with
  | stringCvar var defValue =>
    rintro ⟨hkey, -⟩
    rw [hkey] at hleads
    cases hleads
  | _ => exact id

/-- A key that leads to no menu overruns a string only by what is typed. -/
theorem handle_overrun_of_not_leads (ops : EnvOps E) (hm : s.currentMenu = some m)
    (hmenu : menuAt menus m = some menu) (hr : s.currentItem m = some r)
    (hitem : itemAt menus r = some item) (hleads : leadsTo menus s p.key = none) {b : Bool}
    (hs : menuHandleSingleKey ops menus s p = some (s', b)) :
  s'.overrun = true ↔ s.overrun = true ∨ EditOverruns s p r item
  := by
  rw [leadsTo_eq hm hmenu hr hitem] at hleads
  have hnot (hkey : p.key ≠ .activate) : ¬ EditOverruns s p r item := by
    obtain ⟨kind, disabled⟩ := item
    cases kind with
    | stringCvar var defValue => exact fun htypes => hkey htypes.1
    | _ => exact id
  have hsame (hkey : p.key ≠ .activate) (htext : SameText s s') :
      s'.overrun = true ↔ s.overrun = true ∨ EditOverruns s p r item := by
    rw [htext.overrun]
    exact (or_iff_left (hnot hkey)).symm
  by_cases hmoves : p.key ∉ [.nextItem, .prevItem, .abort]
  · have hinvoke : (invoke ops menus r item p s).overrun = true
        ↔ s.overrun = true ∨ EditOverruns s p r item := by
      apply invoke_overrun
      intro name hname hkey
      simp only [List.mem_cons, List.not_mem_nil, or_false] at hkey
      obtain hkey | hkey | hkey := hkey
      all_goals simp [hkey, hname] at hleads
    rw [← hinvoke]
    rw [handle_default hm hmenu hr hitem hmoves] at hs
    split_ifs at hs
    · have hpopdown : SameText (invoke ops menus r item p s)
          (menuFormPopdown menus (invoke ops menus r item p s)) := menuFormPopdown_sameText _
      have htext := hpopdown.trans (leave_sameText ops menus _)
      obtain rfl : _ = s' := congrArg Prod.fst (Option.some.inj hs)
      rw [htext.overrun]
    · obtain rfl : _ = s' := congrArg Prod.fst (Option.some.inj hs)
      exact .rfl
  · simp only [List.mem_cons, List.not_mem_nil, or_false, not_not] at hmoves
    simp only [menuHandleSingleKey, hm, hmenu, Option.bind_eq_bind, Option.bind_some] at hs
    obtain hkey | hkey | hkey := hmoves
    · simp only [hkey, hr, Option.bind_some] at hs
      obtain rfl : _ = s' := congrArg Prod.fst (Option.some.inj hs)
      exact hsame (by rw [hkey]; decide) (moveTo_sameText ..)
    · simp only [hkey, hr, Option.bind_some] at hs
      obtain rfl : _ = s' := congrArg Prod.fst (Option.some.inj hs)
      exact hsame (by rw [hkey]; decide) (moveTo_sameText ..)
    · simp only [hkey] at hs hleads
      split_ifs at hs hleads with htype
      · obtain rfl : _ = s' := congrArg Prod.fst (Option.some.inj hs)
        exact hsame (by rw [hkey]; decide) (menuFormPopdown_sameText s)
      · rw [hleads] at hs
        obtain rfl : _ = s' := congrArg Prod.fst (Option.some.inj hs)
        exact hsame (by rw [hkey]; decide) (menuFormPopupName_sameText _ s)

end Handle

/-- **The strings.**  A key overruns a string if and only if it shows a menu with a string that is
too long, or too much is typed. -/
theorem handle_overrun (ops : EnvOps E) (hwf : WellFormed menus) (h : Inv menus s) {p : Press}
    {b : Bool} (hs : menuHandleSingleKey ops menus s p = some (s', b)) :
  s'.overrun = true ↔ s.overrun = true ∨ Overruns ops menus s p
  := by
  obtain ⟨m, r, hm, hr⟩ := h.item
  obtain ⟨hrm, item, hitem, hdis⟩ := h.items m r hr
  obtain ⟨menu, hmenu, hi⟩ := Option.bind_eq_some_iff.mp hitem
  rw [hrm] at hmenu
  have htypes : TypesTooMuch menus s p ↔ EditOverruns s p r item := by
    constructor
    · rintro ⟨m', hm', r', hr', item', hitem', htypes⟩
      obtain rfl := Option.some.inj (hm.symm.trans hm')
      obtain rfl := Option.some.inj (hr.symm.trans hr')
      obtain rfl := Option.some.inj (hitem.symm.trans hitem')
      exact htypes
    · exact fun htypes => ⟨m, hm, r, hr, item, hitem, htypes⟩
  rw [Overruns, htypes]
  cases hleads : leadsTo menus s p.key with
  | some name =>
    obtain ⟨hname, -, hhandle⟩ := handle_leads ops hwf h hleads
    obtain ⟨k, hk, -⟩ := hname.exists_find
    obtain rfl : _ = s' := congrArg Prod.fst (Option.some.inj (hhandle.symm.trans hs))
    rw [menuFormSwitchMenu_overrun ops hk]
    apply or_congr_right
    constructor
    · exact fun hlong => .inl ⟨name, hleads, k, hk, hlong⟩
    · rintro (⟨name', hname', k', hk', hlong⟩ | htypes)
      · obtain rfl := Option.some.inj (hleads.symm.trans hname')
        obtain rfl := Option.some.inj (hk.symm.trans hk')
        exact hlong
      · exact absurd htypes (not_editOverruns_of_leads hm hmenu hr hitem hleads)
  | none =>
    have hother := handle_overrun_of_not_leads ops hm hmenu hr hitem hleads hs
    rw [hother]
    apply or_congr_right
    refine ⟨.inr, fun h => h.resolve_left ?_⟩
    rintro ⟨_, hname, _⟩
    cases hleads.symm.trans hname

/-! ### Sessions -/

/-- The menu shown has a current item of its own that is enabled, below a popup is a form, and no
string was longer than its item. -/
structure Sound (menus : List MenuT) (s : State E) : Prop where
  strings : s.overrun = false
  item : ∃ m r, s.currentMenu = some m ∧ s.currentItem m = some r ∧ r.menu = m ∧ Enabled menus r
  popup : shown menus s = some .popup → s.popupSave.bind (typeOf menus) = some .form

/-- A popup opened here is left, whatever keys are pressed while it is shown, for the menu and the
item it was opened from. -/
def Returns (ops : EnvOps E) (menus : List MenuT) (t : Session E) : Prop :=
  ∀ p t₁ ps t', shown menus t.state = some .form → step ops menus t p = some t₁ →
    shown menus t₁.state = some .popup →
    Run.Along (step ops menus) (fun u _ => shown menus u.state = some .popup) t₁ ps →
    Run.exec (step ops menus) t₁ ps = some t' → shown menus t'.state ≠ some .popup →
    t'.state.currentMenu = t.state.currentMenu
      ∧ ∀ m ∈ t.state.currentMenu, t'.state.currentItem m = t.state.currentItem m

/-- The key does not open a menu without an enabled item. -/
def StaysSelectable (menus : List MenuT) (t : Session E) (p : Press) : Prop :=
  t.running = true → ¬ OpensUnselectable menus t.state p.key

instance (t : Session E) (p : Press) : Decidable (StaysSelectable menus t p) :=
  inferInstanceAs (Decidable (_ → _))

/-- Nor does it overrun a string. -/
structure Meets (ops : EnvOps E) (menus : List MenuT) (t : Session E) (p : Press) : Prop where
  selectable : StaysSelectable menus t p
  strings : t.running = true → ¬ Overruns ops menus t.state p

instance (t : Session E) (p : Press) : Decidable (Meets ops menus t p) :=
  decidable_of_iff (StaysSelectable menus t p ∧ (t.running = true → ¬ Overruns ops menus t.state p))
    ⟨fun h => ⟨h.1, h.2⟩, fun h => ⟨h.1, h.2⟩⟩

theorem Inv.sound (h : Inv menus s) (hstrings : s.overrun = false) :
  Sound menus s
  := by
  obtain ⟨m, r, hm, hr⟩ := h.item
  obtain ⟨hrm, henabled⟩ := h.items m r hr
  refine ⟨hstrings, ⟨m, r, hm, hr, hrm, henabled⟩, ?_⟩
  intro hpopup
  obtain ⟨m', hsave, hform, -⟩ := h.popup hpopup
  rw [hsave, Option.bind_some, hform]

theorem step_spec (ops : EnvOps E) (hwf : WellFormed menus) {t : Session E}
    (h : Inv menus t.state) {p : Press} (hp : StaysSelectable menus t p) :
  ∃ t', step ops menus t p = some t' ∧ Inv menus t'.state
    ∧ (t'.state = t.state ∨ Outcome menus t.state t'.state)
  := by
  rw [step]
  split_ifs with hrun
  · obtain ⟨s', b, hs', hinv, hout⟩ := handle_spec ops hwf h p (hp hrun)
    refine ⟨⟨s', b⟩, ?_, hinv, .inr hout⟩
    rw [hs', Option.map_some]
  · exact ⟨t, rfl, h, .inl rfl⟩

/-- A step that is not over yet overruns a string as its key does. -/
theorem step_overrun (ops : EnvOps E) (hwf : WellFormed menus) {t t' : Session E}
    (h : Inv menus t.state) {p : Press} (hstep : step ops menus t p = some t') :
  t'.state.overrun = true
    ↔ t.state.overrun = true ∨ t.running = true ∧ Overruns ops menus t.state p
  := by
  rw [step] at hstep
  split_ifs at hstep with hrun
  · obtain ⟨⟨s', b⟩, hs', rfl⟩ := Option.map_eq_some_iff.mp hstep
    rw [handle_overrun ops hwf h hs']
    exact or_congr_right (and_iff_right hrun).symm
  · obtain rfl := Option.some.inj hstep
    exact (or_iff_left fun hover => hrun hover.1).symm

theorem staysSelectable_of_popup (hwf : WellFormed menus) {t : Session E} (h : Inv menus t.state)
    (hpopup : shown menus t.state = some .popup) (p : Press) :
  StaysSelectable menus t p
  := by
  rintro - ⟨name, hname, -⟩
  obtain ⟨-, hform, -⟩ := handle_leads ⟨fun _ _ => none, fun e _ _ => e⟩ hwf h hname
  rw [hpopup] at hform
  simp at hform

/-- The state of a session over the form `m` with the current item `v`: the form or a popup over
it is shown. -/
structure Over (menus : List MenuT) (m : MenuId) (v : Option ItemRef) (t : Session E) : Prop where
  inv : Inv menus t.state
  form : typeOf menus m = some .form
  item : t.state.currentItem m = v
  menu : t.state.currentMenu = some m
    ∨ shown menus t.state = some .popup ∧ t.state.popupSave = some m

/-- A key in a popup. -/
theorem Over.step (hwf : WellFormed menus) {v : Option ItemRef} {t t' : Session E} {p : Press}
    (h : Over menus m v t) (hpopup : shown menus t.state = some .popup)
    (hstep : Menu.step ops menus t p = some t') :
  Over menus m v t'
  := by
  obtain ⟨t'', ht'', hinv', hout⟩ :=
    step_spec ops hwf h.inv (staysSelectable_of_popup hwf h.inv hpopup p)
  rw [hstep] at ht''
  obtain rfl := Option.some.inj ht''
  have hne : t.state.currentMenu ≠ some m := by
    intro heq
    rw [shown, heq, Option.bind_some, h.form] at hpopup
    simp at hpopup
  have hsave : t.state.popupSave = some m := by
    obtain hmenu | hmenu := h.menu
    · exact absurd hmenu hne
    · exact hmenu.2
  obtain hsame | hout := hout
  · refine ⟨hinv', h.form, ?_, ?_⟩
    · rw [hsame, h.item]
    · rw [hsame]
      exact h.menu
  cases hout with
  | stayed m' hm hm' hsave' hitem =>
    refine ⟨hinv', h.form, ?_, .inr ⟨?_, ?_⟩⟩
    · rw [hitem m, h.item]
      rintro rfl
      exact hne hm
    · rw [← hpopup, shown, shown, hm, hm']
    · rw [hsave', hsave]
  | switched hform =>
    rw [hpopup] at hform
    simp at hform
  | opened hform =>
    rw [hpopup] at hform
    simp at hform
  | closed _ hmenu hitem =>
    refine ⟨hinv', h.form, ?_, .inl ?_⟩
    · rw [hitem, h.item]
    · rw [hmenu, hsave]

/-- A key that opens a popup over the form shown. -/
theorem over_of_opened (hwf : WellFormed menus) {t t₁ : Session E} {p : Press}
    (h : Inv menus t.state) (hform : shown menus t.state = some .form)
    (hstep : step ops menus t p = some t₁) (hpopup : shown menus t₁.state = some .popup) :
  ∃ m, t.state.currentMenu = some m ∧ Over menus m (t.state.currentItem m) t₁
  := by
  obtain ⟨m, r, hm, hr⟩ := h.item
  refine ⟨m, hm, ?_⟩
  by_cases hp : StaysSelectable menus t p
  · obtain ⟨t', ht', hinv, hout⟩ := step_spec ops hwf h hp
    rw [hstep] at ht'
    obtain rfl := Option.some.inj ht'
    obtain hsame | hout := hout
    · rw [hsame, hform] at hpopup
      simp at hpopup
    cases hout with
    | stayed m' hm' hm₁ =>
      rw [shown, hm₁, ← hm', ← shown, hform] at hpopup
      simp at hpopup
    | switched _ hform₁ =>
      rw [hform₁] at hpopup
      simp at hpopup
    | opened _ _ hsave hitem =>
      refine ⟨hinv, ?_, hitem m hm, .inr ⟨hpopup, ?_⟩⟩
      · rw [shown, hm, Option.bind_some] at hform
        exact hform
      · rw [hsave, hm]
    | closed hpopup' =>
      rw [hform] at hpopup'
      simp at hpopup'
  · -- the key switches to a form
    rw [StaysSelectable, Classical.not_imp, not_not] at hp
    obtain ⟨hrun, name, hname, -⟩ := hp
    obtain ⟨hleads, -, hhandle⟩ := handle_leads ops hwf h hname
    obtain ⟨k, hk, htype⟩ := hleads.exists_find
    obtain ⟨-, hmenu, -⟩ := menuFormSwitchMenu_spec ops h.toCore hk
    rw [step, if_pos hrun, hhandle, Option.map_some, Option.some.injEq] at hstep
    rw [← hstep, shown, hmenu, Option.bind_some, htype] at hpopup
    simp at hpopup

theorem Inv.returns (hwf : WellFormed menus) {t : Session E} (h : Inv menus t.state) :
  Returns ops menus t
  := by
  intro p t₁ ps t' hform hstep hpopup halong hrun hleft
  obtain ⟨m, hm, hover⟩ := over_of_opened hwf h hform hstep hpopup
  have hover' : Over menus m (t.state.currentItem m) t' := by
    apply Run.exec_invariant_of_some _ hover halong hrun
    intro u q u' hu hup hstep
    apply hu.step hwf hup hstep
  obtain hmenu | ⟨hpopup', -⟩ := hover'.menu
  · refine ⟨by rw [hmenu, hm], ?_⟩
    intro m' hm'
    rw [Option.mem_def, hm, Option.some.injEq] at hm'
    subst hm'
    exact hover'.item
  · exact absurd hpopup' hleft

theorem not_sound_of_none (hm : s.currentMenu = some m) (hitem : s.currentItem m = none) :
  ¬ Sound menus s
  := by
  intro h
  obtain ⟨m', r, hm', hr, -⟩ := h.item
  rw [hm, Option.some.injEq] at hm'
  subst hm'
  rw [hitem] at hr
  simp at hr

/-- A step that meets the condition keeps the invariant. -/
theorem step_meets (ops : EnvOps E) (hwf : WellFormed menus) {t : Session E} {p : Press}
    (h : Inv menus t.state ∧ t.state.overrun = false) (hp : Meets ops menus t p) :
  ∃ t', step ops menus t p = some t' ∧ Inv menus t'.state ∧ t'.state.overrun = false
  := by
  obtain ⟨t', ht', hinv, -⟩ := step_spec ops hwf h.1 hp.selectable
  refine ⟨t', ht', hinv, Bool.eq_false_iff.mpr ?_⟩
  rw [Ne, step_overrun ops hwf h.1 ht', h.2]
  rintro (hfalse | ⟨hrun, hover⟩)
  · cases hfalse
  · exact hp.strings hrun hover

/-- A step to a sound state meets the condition. -/
theorem meets_of_sound (ops : EnvOps E) (hwf : WellFormed menus) {t t' : Session E} {p : Press}
    (h : Inv menus t.state) (hstep : step ops menus t p = some t') (hsound : Sound menus t'.state) :
  Meets ops menus t p
  := by
  constructor
  · intro hrun hopens
    obtain ⟨s', k, hhandle, hmenu, hitem⟩ := handle_opens ops hwf h hopens
    rw [step, if_pos hrun, hhandle, Option.map_some] at hstep
    obtain rfl := Option.some.inj hstep
    exact not_sound_of_none hmenu hitem hsound
  · intro hrun hover
    have htrue := (step_overrun ops hwf h hstep).mpr (.inr ⟨hrun, hover⟩)
    rw [hsound.strings] at htrue
    cases htrue

/-- Every state of a run is sound exactly when no key of it opens a menu without an enabled
item or overruns a string. -/
theorem sound_iff_along (hwf : WellFormed menus) {t : Session E} (h : Inv menus t.state)
    (hstrings : t.state.overrun = false) (ps : List Press) :
  (∀ before, before <+: ps → ∃ t', Run.exec (step ops menus) t before = some t'
      ∧ Sound menus t'.state ∧ Returns ops menus t')
    ↔ Run.Along (step ops menus) (Meets ops menus) t ps
  := by
  constructor
  · intro hall
    induction ps generalizing t with
    | nil => trivial
    | cons p ps ih =>
      have hp : Meets ops menus t p := by
        obtain ⟨t', ht', hsound, -⟩ := hall [p] (by simp)
        obtain ⟨t₁, ht₁, hrest⟩ := Option.bind_eq_some_iff.mp ht'
        obtain rfl := Option.some.inj hrest
        exact meets_of_sound ops hwf h ht₁ hsound
      refine ⟨hp, ?_⟩
      intro t₁ ht₁
      obtain ⟨t₁', ht₁', hinv, hstrings'⟩ := step_meets ops hwf ⟨h, hstrings⟩ hp
      rw [Option.mem_def, ht₁', Option.some.injEq] at ht₁
      subst ht₁
      apply ih hinv hstrings'
      intro before hbefore
      obtain ⟨t', ht', hsound⟩ := hall (p :: before) (by simpa using hbefore)
      rw [Run.exec, ht₁', Option.bind_some] at ht'
      exact ⟨t', ht', hsound⟩
  · rintro halong before ⟨after, rfl⟩
    obtain ⟨t', ht', hinv, hstrings'⟩ :=
      Run.exec_invariant (fun t p hinv hp => step_meets ops hwf hinv hp) ⟨h, hstrings⟩
        halong.of_append
    exact ⟨t', ht', hinv.sound hstrings', hinv.returns hwf⟩

/-! ### The preferences menu -/

theorem newState_core (hwf : WellFormed menus) (env : E) :
  Core menus (newState menus env)
  := by
  refine ⟨by simp [newState], ?_⟩
  intro r entries hentries
  obtain ⟨item, choice, var, hitem, hkind⟩ := exists_of_entriesAt hentries
  have hlt := hwf.itemAt hitem
  rw [ItemT.WellFormed, hkind] at hlt
  simp only [newState, hitem, Option.map_some, hkind]
  exact hlt

theorem menuDo_inv (hwf : WellFormed menus) {first : List Byte} (hfirst : Leads menus first)
    (hsel : ∀ k ∈ menuFormFindMenu menus first, Selectable menus (.listed k)) (env : E) :
  Inv menus (menuDo ops menus first env).state
  := by
  obtain ⟨k, hk, htype⟩ := hfirst.exists_find
  obtain ⟨hcore, hmenu, hitem⟩ :=
    menuFormSwitchMenu_spec ops (newState_core hwf env) hk
  have heq : (menuDo ops menus first env).state
      = menuFormSwitchMenu ops menus first (newState menus env) := by
    rw [menuDo, menuDrawForm, hmenu, Option.elim_some]
    exact menuLayout_of_some (hitem (hsel k hk))
  obtain ⟨r, hr⟩ := Option.ne_none_iff_exists'.mp (hitem (hsel k hk))
  rw [heq]
  refine ⟨hcore, ⟨_, r, hmenu, hr⟩, ?_⟩
  intro hpopup
  rw [shown, hmenu, Option.bind_some, htype] at hpopup
  simp at hpopup

/-- What is copied before the first key. -/
theorem menuDo_overrun (ops : EnvOps E) {first : List Byte} {k : ℕ}
    (hk : menuFormFindMenu menus first = some k) (env : E) :
  (menuDo ops menus first env).state.overrun = true
    ↔ ∃ q ∈ (items menus (.listed k)).zipIdx,
      TooLong ops (newState menus env) ⟨.listed k, q.2⟩ q.1
  := by
  have htext : SameText (menuFormSwitchMenu ops menus first (newState menus env))
      (menuDo ops menus first env).state := by
    rw [menuDo, menuDrawForm]
    cases (menuFormSwitchMenu ops menus first (newState menus env)).currentMenu with
    | none => exact .refl _
    | some m => exact menuLayout_sameText m _
  rw [htext.overrun, menuFormSwitchMenu_overrun ops hk]
  exact or_iff_right Bool.false_ne_true

namespace Bios

/-- The menus depend on whether the model is 0 only. -/
theorem makeMenus_of_ne {modelValue : Byte} (h : modelValue ≠ 0) (chipsetName : Bool) :
  makeMenus modelValue chipsetName = makeMenus 1 chipsetName
  := by
  simp [makeMenus, makeVideoMenu, makeMainMenu, h]

theorem makeMenus_wellFormed (modelValue : Byte) (chipsetName : Bool) :
  WellFormed (makeMenus modelValue chipsetName)
    ∧ Leads (makeMenus modelValue chipsetName) mainMenuName
    ∧ ∀ k ∈ menuFormFindMenu (makeMenus modelValue chipsetName) mainMenuName,
      Selectable (makeMenus modelValue chipsetName) (.listed k)
  := by
  by_cases h : modelValue = 0
  · subst h
    cases chipsetName <;> decide +kernel
  · rw [makeMenus_of_ne h]
    cases chipsetName <;> decide +kernel

/-- The main menu has no strings. -/
theorem mainMenu_overrun {E : Type} (ops : EnvOps E) (modelValue : Byte) (chipsetName : Bool)
    (env : E) :
  (showAndDoBiosMenu ops modelValue chipsetName env).state.overrun = false
  := by
  have hk : menuFormFindMenu (makeMenus modelValue chipsetName) mainMenuName = some 3 := by
    by_cases h : modelValue = 0
    · rw [h]
      cases chipsetName <;> decide +kernel
    · rw [makeMenus_of_ne h]
      cases chipsetName <;> decide +kernel
  have hsubmenus : ∀ item ∈ (makeMainMenu modelValue).itemList,
      ∃ name, item = itemtypeSubmenuAlloc name := by
    intro item hitem
    rw [makeMainMenu, formMenu] at hitem
    dsimp only at hitem
    split_ifs at hitem
    all_goals
      simp only [List.cons_append, List.nil_append, List.mem_cons, List.not_mem_nil,
        or_false] at hitem
      rcases hitem with rfl | rfl | rfl | rfl | rfl
      all_goals exact ⟨_, rfl⟩
  rw [← Bool.not_eq_true, showAndDoBiosMenu, menuDo_overrun ops hk]
  rintro ⟨q, hq, hlong⟩
  obtain ⟨name, hname⟩ := hsubmenus q.1 (List.fst_mem_of_mem_zipIdx hq)
  rw [hname] at hlong
  exact hlong

end Bios

open Bios in
/-- Over every run of the preferences menu: the current menu always has an enabled current item of
its own, popups do not nest, each is left for the form and the item it was opened from, and strings
stay in their items, exactly when no key of the run opens a menu that has only disabled items or
overruns a string. -/
theorem biosMenu_sound_iff {E : Type} (ops : EnvOps E) (modelValue : Byte) (chipsetName : Bool)
    (env : E) (ps : List Press) :
  (∀ before, before <+: ps →
    ∃ t, Run.exec (step ops (makeMenus modelValue chipsetName))
        (showAndDoBiosMenu ops modelValue chipsetName env) before = some t
      ∧ Sound (makeMenus modelValue chipsetName) t.state
      ∧ Returns ops (makeMenus modelValue chipsetName) t)
    ↔ Run.Along (step ops (makeMenus modelValue chipsetName))
      (Meets ops (makeMenus modelValue chipsetName))
      (showAndDoBiosMenu ops modelValue chipsetName env) ps
  := by
  obtain ⟨hwf, hmain, hsel⟩ := makeMenus_wellFormed modelValue chipsetName
  apply sound_iff_along hwf
  · apply menuDo_inv hwf hmain hsel
  · apply mainMenu_overrun

/-- An environment that is a map. -/
def mapEnv : EnvOps (List Byte → Option (List Byte)) where
  getenv env name := env name
  setenv env name value := Function.update env name (if value = [] then none else some value)

/-- Four times arrow down in the main menu, and return on "System Information". -/
def openSystemInfo : List Press :=
  [⟨.nextItem, []⟩, ⟨.nextItem, []⟩, ⟨.nextItem, []⟩, ⟨.nextItem, []⟩, ⟨.activate, []⟩]

open Bios in
/-- "System Information" has no current item, and an arrow key follows the `NULL` pointer. -/
theorem biosMenu_systemInfo :
  ∃ t, Run.exec (step mapEnv (makeMenus 0 true)) (showAndDoBiosMenu mapEnv 0 true fun _ => none)
      openSystemInfo = some t
    ∧ ¬ Sound (makeMenus 0 true) t.state ∧ step mapEnv (makeMenus 0 true) t ⟨.nextItem, []⟩ = none
  := by
  have hrun : (Run.exec (step mapEnv (makeMenus 0 true))
      (showAndDoBiosMenu mapEnv 0 true fun _ => none) openSystemInfo).map
        (fun t => (t.state.currentMenu, t.state.currentItem (.listed 7),
          (step mapEnv (makeMenus 0 true) t ⟨.nextItem, []⟩).isNone))
      = some (some (.listed 7), none, true) := by
    decide +kernel
  obtain ⟨t, ht, hstate⟩ := Option.map_eq_some_iff.mp hrun
  simp only [Prod.mk.injEq, Option.isNone_iff_eq_none] at hstate
  exact ⟨t, ht, not_sound_of_none hstate.1 hstate.2.1, hstate.2.2⟩

end Menu
