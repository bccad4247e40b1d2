import UBoot.Menu.Navigation
import UBoot.Menu.RoundTrip

/-!
# The boot selection

The menu of `board/ACube/menu/bootselect_menu.c` is left by the entries of its "Exit Menu", and all
of them call `my_leave_func`: "Go to preferences menu" and "Continue normal boot" save nothing, but
they delete `boot2` and `boot3` all the same.
-/

namespace Menu

variable {E : Type} {ops : EnvOps E} {menus : List MenuT} {s s' s'' : State E} {m : MenuId}
  {r : ItemRef} {p : Press}

namespace BootSelect

/-- `BOOT_MENU_NAME`. -/
def bootMenuName : List Byte := ascii "U-Boot Boot Select"

/-- `EXIT_MENU_NAME`. -/
def exitMenuName : List Byte := ascii "Exit Menu"

/-- `make_bootselect_menu`. -/
def makeBootselectMenu : List MenuT := [
  Bios.formMenu bootMenuName none [
    itemtypePopupAlloc 0 (ascii "boot1") Bios.bootSeq,
    Bios.spacer,
    itemtypeStringCvarAlloc (ascii "os4_commandline") (ascii "debuglevel=0"),
    itemtypeStringCvarAlloc (ascii "bootargs") (ascii "root=/dev/Sda3"),
    Bios.spacer],
  { type := .popup
    menuTitle := exitMenuName
    parentMenu := none
    itemList := [
      itemtypeFuncAlloc (.myLeave .bootConfig),
      itemtypeFuncAlloc (.myLeave .goMenu),
      itemtypeFuncAlloc (.myLeave .bootNoconfig)] }]

end BootSelect

/-- `show_and_do_boot_select`, up to the first key. -/
def showAndDoBootSelect (ops : EnvOps E) (env : E) : Session E :=
  menuDo ops BootSelect.makeBootselectMenu BootSelect.bootMenuName env

/-! ### Menus without other menus -/

/-- A menu that leads to no other one, and that is left by `my_leave_func` in a popup only. -/
structure MenuT.Selects (menu : MenuT) : Prop where
  parent : menu.parentMenu = none
  submenu : ∀ item ∈ menu.itemList, ∀ name, item.kind ≠ .submenu name
  leave : ∀ item ∈ menu.itemList, ∀ arg, item.kind ≠ .func (.leave arg)
  myLeave : ∀ item ∈ menu.itemList, ∀ arg, item.kind = .func (.myLeave arg) → menu.type = .popup

theorem popupMenu_selects (r : ItemRef) (entries : List (List Byte)) :
  (popupMenu r entries).Selects
  := by
  have hkind : ∀ item ∈ (popupMenu r entries).itemList, ∃ i, item.kind = .func (.choose r i) := by
    intro item hitem
    obtain ⟨i, -, rfl⟩ := List.mem_map.mp hitem
    exact ⟨i, rfl⟩
  refine ⟨rfl, ?_, ?_, fun _ _ _ _ => rfl⟩
  · intro item hitem name heq
    obtain ⟨i, hi⟩ := hkind item hitem
    rw [hi] at heq
    cases heq
  · intro item hitem arg heq
    obtain ⟨i, hi⟩ := hkind item hitem
    rw [hi] at heq
    cases heq

/-- The popups of popup items are such menus as well. -/
theorem selects_menuAt (hsel : ∀ menu ∈ menus, menu.Selects) {menu : MenuT}
    (hm : menuAt menus m = some menu) :
  menu.Selects
  := by
  cases m with
  | listed k => exact hsel menu (List.mem_of_getElem? hm)
  | popupOf m i =>
    obtain ⟨item, choice, var, entries, -, -, rfl⟩ := menuAt_popupOf hm
    apply popupMenu_selects

theorem leadsTo_eq_none (hsel : ∀ menu ∈ menus, menu.Selects) (h : Inv menus s) (key : Key) :
  leadsTo menus s key = none
  := by
  obtain ⟨m, r, hm, hr⟩ := h.item
  obtain ⟨hrm, item, hitem, -⟩ := h.items m r hr
  obtain ⟨menu, hmenu, hi⟩ := Option.bind_eq_some_iff.mp hitem
  rw [hrm] at hmenu
  have hmenu' := selects_menuAt hsel hmenu
  simp only [leadsTo, hm, hmenu, hr, hitem, Option.bind_eq_bind, Option.bind_some]
  cases key with
  | abort => simp only [hmenu'.parent, ite_self]
  | activate | nextOption | prevOption =>
    cases hkind : item.kind with
    | submenu name => exact absurd hkind (hmenu'.submenu item (List.mem_of_getElem? hi) name)
    | _ => rfl
  | _ => rfl

/-! ### Texts without `NUL` -/

theorem handle_text {string : List Byte} (hstr : 0 ∉ string) {l : Line} (h : 0 ∉ l.text) (key : ℤ) :
  0 ∉ (l.handle string key).text
  := by
  obtain ⟨before, after, ret⟩ := l
  rw [Line.text, List.mem_append, not_or] at h
  obtain ⟨hbefore, hafter⟩ := h
  have hdrop : 0 ∉ before.dropLast := fun hmem => hbefore (List.mem_of_mem_dropLast hmem)
  rw [Line.handle]
  split_ifs
  all_goals rw [Line.text, List.mem_append, not_or]
  · exact ⟨hstr, List.not_mem_nil⟩
  · exact ⟨hbefore, hafter⟩
  · refine ⟨?_, fun hmem => hafter (List.mem_of_mem_tail hmem)⟩
    rw [List.mem_append, not_or]
    refine ⟨hbefore, fun hmem => hafter ?_⟩
    exact List.mem_of_mem_head? (Option.mem_toList.mp hmem)
  · refine ⟨hdrop, ?_⟩
    rw [List.mem_append, not_or]
    refine ⟨fun hmem => hbefore ?_, hafter⟩
    exact List.mem_of_mem_getLast? (Option.mem_toList.mp hmem)
  · exact ⟨hdrop, hafter⟩
  · refine ⟨?_, hafter⟩
    rw [List.mem_append, List.mem_singleton, not_or]
    refine ⟨hbefore, fun hzero => ?_⟩
    have hnat := congrArg UInt8.toNat hzero
    rw [UInt8.toNat_ofNat'] at hnat
    have hzero' : (0 : UInt8).toNat = 0 := rfl
    omega
  · exact ⟨hbefore, hafter⟩

/-- What is typed is without `NUL`. -/
theorem isStr_edited {string : List Byte} (hstr : Env.IsStr string) (typed : List ℤ) :
  Env.IsStr (edited string typed)
  := by
  have hstart : 0 ∉ (Line.start string).text := by
    rw [Line.text, Line.start, List.append_nil]
    exact hstr
  rw [Env.IsStr, edited]
  generalize Line.start string = l at hstart
  induction typed generalizing l with
  | nil => exact hstart
  | cons key typed ih =>
    rw [List.foldl_cons]
    apply ih
    rw [Line.step]
    split
    · exact hstart
    · exact handle_text hstr hstart key

/-! ### What a key leaves as it is -/

/-- Only the navigation, the choices and the string that is edited change. -/
structure Keeps (s s' : State E) : Prop where
  env : s'.env = s.env
  leaveSelect : s'.leaveSelect = s.leaveSelect
  loaded : s'.loaded = s.loaded
  value : ∀ r, Env.IsStr (s.value r) → Env.IsStr (s'.value r)

theorem Keeps.refl (s : State E) :
  Keeps s s
  := ⟨rfl, rfl, rfl, fun _ => id⟩

theorem Keeps.trans (h : Keeps s s') (h' : Keeps s' s'') :
  Keeps s s''
  := ⟨h'.env.trans h.env, h'.leaveSelect.trans h.leaveSelect, h'.loaded.trans h.loaded,
    fun r hstr => h'.value r (h.value r hstr)⟩

/-- The fields that the navigation does not touch. -/
theorem Keeps.of_eq (henv : s'.env = s.env) (hleave : s'.leaveSelect = s.leaveSelect)
    (hloaded : s'.loaded = s.loaded) (hvalue : s'.value = s.value) :
  Keeps s s'
  := by
  refine ⟨henv, hleave, hloaded, fun r hstr => ?_⟩
  rwa [hvalue]

theorem menuLayout_keeps (m : MenuId) (s : State E) :
  Keeps s (menuLayout menus m s)
  := by
  rw [menuLayout]
  split_ifs
  all_goals exact Keeps.of_eq rfl rfl rfl rfl

theorem menuFormPopup_keeps (m : MenuId) (s : State E) :
  Keeps s (menuFormPopup menus m s)
  := by
  rw [menuFormPopup]
  split_ifs
  · apply Keeps.trans _ (menuLayout_keeps m _)
    exact Keeps.of_eq rfl rfl rfl rfl
  · exact Keeps.refl s

theorem menuFormPopupName_keeps (name : List Byte) (s : State E) :
  Keeps s (menuFormPopupName menus name s)
  := by
  rw [menuFormPopupName]
  cases menuFormFindMenu menus name with
  | none => exact Keeps.refl s
  | some k => exact menuFormPopup_keeps _ s

theorem menuFormPopdown_keeps (s : State E) :
  Keeps s (menuFormPopdown menus s)
  := by
  rw [menuFormPopdown]
  split_ifs
  · cases s.popupSave with
    | none => exact Keeps.of_eq rfl rfl rfl rfl
    | some m =>
      apply Keeps.trans _ (menuLayout_keeps m _)
      exact Keeps.of_eq rfl rfl rfl rfl
  · exact Keeps.refl s

theorem menuSetActiveItem_keeps (m : MenuId) (nr : ℕ) (s : State E) :
  Keeps s (menuSetActiveItem menus m nr s)
  := by
  rw [menuSetActiveItem]
  split_ifs
  all_goals exact Keeps.of_eq rfl rfl rfl rfl

theorem moveTo_keeps (m : MenuId) (c : ItemRef) (next : Option ℕ) (s : State E) :
  Keeps s (moveTo m c next s)
  := by
  cases next
  all_goals exact Keeps.of_eq rfl rfl rfl rfl

theorem itemtypePopupInvoke_keeps (r : ItemRef) (entries : List (List Byte)) (p : Press)
    (s : State E) :
  Keeps s (itemtypePopupInvoke menus r entries p s)
  := by
  rw [itemtypePopupInvoke]
  split
  case h_1 => exact (menuSetActiveItem_keeps _ _ s).trans (menuFormPopup_keeps _ _)
  case h_4 => exact Keeps.refl s
  all_goals
    split_ifs
    all_goals exact Keeps.of_eq rfl rfl rfl rfl

theorem itemtypeStringCvarInvoke_keeps (r : ItemRef) (p : Press) (s : State E) :
  Keeps s (itemtypeStringCvarInvoke r p s)
  := by
  rw [itemtypeStringCvarInvoke]
  split
  · refine ⟨rfl, rfl, rfl, ?_⟩
    intro r' hstr
    by_cases hr : r' = r
    · subst hr
      dsimp only
      rw [Function.update_self]
      exact isStr_edited hstr _
    · dsimp only
      rwa [Function.update_of_ne hr]
  · exact Keeps.refl s

/-! ### A key -/

/-- What an item does, other than `my_leave_func`. -/
theorem invoke_keeps {item : ItemT} (hsubmenu : ∀ name, item.kind ≠ .submenu name)
    (hleave : ∀ arg, item.kind ≠ .func (.leave arg))
    (hmyLeave : ∀ arg, item.kind = .func (.myLeave arg) → p.key ≠ .activate) :
  Keeps s (invoke ops menus r item p s)
  := by
  cases hkind : item.kind with
  | func func =>
    simp only [invoke, hkind]
    unfold itemtypeFuncInvoke
    split
    case h_1 => exact Keeps.of_eq rfl rfl rfl rfl
    case h_2 arg _ => exact absurd hkind (hleave arg)
    case h_3 arg hkey => exact absurd hkey (hmyLeave arg hkind)
    case h_4 => exact Keeps.refl s
  | submenu name => exact absurd hkind (hsubmenu name)
  | popup choice var entries =>
    simp only [invoke, hkind]
    exact itemtypePopupInvoke_keeps r entries p s
  | stringCvar var defValue =>
    simp only [invoke, hkind]
    exact itemtypeStringCvarInvoke_keeps r p s
  | label =>
    simp only [invoke, hkind]
    exact Keeps.refl s

/-- `my_leave_func` leaves the menus as they are. -/
theorem myLeaveFunc_inv (ops : EnvOps E) (h : Inv menus s) (arg : BootExit) :
  SameNav s (myLeaveFunc ops arg s) ∧ Inv menus (myLeaveFunc ops arg s)
  := by
  obtain ⟨hnav, hchoice⟩ := myLeaveFunc_sameNav ops arg s
  refine ⟨hnav, h.congr hnav ?_⟩
  rw [hchoice]
  exact h.choice

/-- The key calls `my_leave_func`. -/
def Chooses (menus : List MenuT) (s : State E) (p : Press) (arg : BootExit) : Prop :=
  p.key = .activate ∧ ∃ m ∈ s.currentMenu, ∃ r ∈ s.currentItem m, ∃ item ∈ itemAt menus r,
    item.kind = .func (.myLeave arg)

/-- **One key.**  Unless it calls `my_leave_func`, the loop goes on and the environment stays as it
is. -/
theorem handle_cases (ops : EnvOps E) (hsel : ∀ menu ∈ menus, menu.Selects) (h : Inv menus s)
    (hopen : s.leaveSelect = none) (p : Press) :
  (∃ s', menuHandleSingleKey ops menus s p = some (s', true) ∧ Keeps s s'
      ∧ ∀ arg, ¬ Chooses menus s p arg)
    ∨ ∃ arg, (∀ arg', Chooses menus s p arg' ↔ arg' = arg)
      ∧ menuHandleSingleKey ops menus s p
        = some (leave ops menus { myLeaveFunc ops arg s with currentMenu := s.popupSave })
  := by
  obtain ⟨m, r, hm, hr⟩ := h.item
  obtain ⟨hrm, item, hitem, -⟩ := h.items m r hr
  obtain ⟨menu, hmenu, hi⟩ := Option.bind_eq_some_iff.mp hitem
  rw [hrm] at hmenu
  have hmem := List.mem_of_getElem? hi
  have hmenu' := selects_menuAt hsel hmenu
  have hchooses (arg : BootExit) :
      Chooses menus s p arg ↔ p.key = .activate ∧ item.kind = .func (.myLeave arg) := by
    constructor
    · rintro ⟨hkey, m', hm', r', hr', item', hitem', hkind⟩
      obtain rfl := Option.some.inj (hm.symm.trans hm')
      obtain rfl := Option.some.inj (hr.symm.trans hr')
      obtain rfl := Option.some.inj (hitem.symm.trans hitem')
      exact ⟨hkey, hkind⟩
    · exact fun h => ⟨h.1, m, hm, r, hr, item, hitem, h.2⟩
  by_cases hmoves : p.key ∉ [.nextItem, .prevItem, .abort]
  · rw [handle_default hm hmenu hr hitem hmoves]
    by_cases hleaves : p.key = .activate ∧ ∃ arg, item.kind = .func (.myLeave arg)
    · obtain ⟨hkey, arg, hkind⟩ := hleaves
      have htype := hmenu'.myLeave item hmem arg hkind
      have hinvoke : invoke ops menus r item p s = myLeaveFunc ops arg s := by
        simp only [invoke, hkind, itemtypeFuncInvoke, hkey]
      have hpopup : shown menus s = some .popup := by
        rw [shown, hm, Option.bind_some, typeOf, hmenu, Option.map_some, htype]
      obtain ⟨hnav, hinv⟩ := myLeaveFunc_inv ops h arg
      have hshown : shown menus (myLeaveFunc ops arg s) = some .popup := by
        rw [shown, hnav.currentMenu]
        exact hpopup
      have hpopdown : menuFormPopdown menus (myLeaveFunc ops arg s)
          = { myLeaveFunc ops arg s with currentMenu := s.popupSave } := by
        rw [menuFormPopdown_eq hinv hshown]
        exact congrArg (fun m => { myLeaveFunc ops arg s with currentMenu := m }) hnav.popupSave
      right
      refine ⟨arg, fun arg' => ?_, ?_⟩
      · rw [hchooses, hkind]
        constructor
        · rintro ⟨-, heq⟩
          cases heq
          rfl
        · rintro rfl
          exact ⟨hkey, rfl⟩
      rw [if_pos ⟨hkey, htype⟩, hinvoke, hpopdown]
    · left
      have hkeeps : Keeps s (invoke ops menus r item p s) :=
        invoke_keeps (hmenu'.submenu item hmem) (hmenu'.leave item hmem)
          fun arg hkind hkey => hleaves ⟨hkey, arg, hkind⟩
      have hnot (arg : BootExit) : ¬ Chooses menus s p arg := by
        rw [hchooses]
        exact fun hkind => hleaves ⟨hkind.1, arg, hkind.2⟩
      split_ifs
      · have hkeeps' : Keeps s (menuFormPopdown menus (invoke ops menus r item p s)) :=
          hkeeps.trans (menuFormPopdown_keeps _)
        rw [leave, hkeeps'.leaveSelect, hopen]
        exact ⟨_, rfl, hkeeps', hnot⟩
      · exact ⟨_, rfl, hkeeps, hnot⟩
  · left
    simp only [List.mem_cons, List.not_mem_nil, or_false, not_not] at hmoves
    have hnot (arg : BootExit) : ¬ Chooses menus s p arg := by
      rw [hchooses]
      rintro ⟨hkey, -⟩
      simp [hkey] at hmoves
    simp only [menuHandleSingleKey, hm, hmenu, Option.bind_eq_bind, Option.bind_some]
    obtain hkey | hkey | hkey := hmoves
    · simp only [hkey, hr, Option.bind_some]
      exact ⟨_, rfl, moveTo_keeps .., hnot⟩
    · simp only [hkey, hr, Option.bind_some]
      exact ⟨_, rfl, moveTo_keeps .., hnot⟩
    · simp only [hkey, hmenu'.parent]
      split_ifs
      · exact ⟨_, rfl, menuFormPopdown_keeps s, hnot⟩
      · exact ⟨_, rfl, menuFormPopupName_keeps _ s, hnot⟩

/-! ### The environment in RAM -/

open Env

variable {c : Config} {x : Devices} {g : Globals} {es : List Entry} {name value : List Byte}

/-- The environment is in RAM, and its variables are `es`. -/
structure InRam (c : Config) (g : Globals) (es : List Entry) : Prop where
  inRam : g.inRam = true
  wellFormed : Env.WellFormed c.envSize g.env.data es

theorem InRam.getenv_eq (h : InRam c g es) (hname : IsName name) :
  (ramEnv c x).getenv g name = lookup es name
  := by
  simp only [ramEnv, getenvRam_eq h.wellFormed hname, Option.join_some]

/-- A call of `setenv` has one of its effects, and for a plain name it is not refused. -/
theorem InRam.effect (h : InRam c g es) (hname : IsName name) (hplain : Plain name)
    (hvalue : IsStr value) :
  ∃ r, Effect c es name (if value = [] then [] else [value]) g ((ramEnv c x).setenv g name value) r
    ∧ (r = .ok ∨ r = .overflow) ∧ ((ramEnv c x).setenv g name value).inRam = true
  := by
  have hargs : ∀ a ∈ if value = [] then [] else [value], IsStr a := by
    intro a ha
    split_ifs at ha
    · cases ha
    · rwa [List.mem_singleton.mp ha]
  obtain ⟨r, g', heq, heff, hok, hram, -⟩ : ∃ r g', Env.setenv c x g name value = some (r, g')
      ∧ Effect c es name (if value = [] then [] else [value]) g g' r
      ∧ (equals ∉ name → Plain name → r = .ok ∨ r = .overflow) ∧ g'.inRam = true
      ∧ ∀ q, c.envSize ≤ q → g'.env.data q = g.env.data q :=
    doSetenv_effect h.inRam h.wellFormed hname.1 hargs
  have hset : (ramEnv c x).setenv g name value = g' := by
    simp only [ramEnv, heq, Option.map_some, Option.getD_some]
  rw [hset]
  exact ⟨r, heff, hok hname.2 hplain, hram⟩

/-- An empty value deletes the variable. -/
theorem InRam.clear (h : InRam c g es) (hname : IsName name) (hplain : Plain name) :
  InRam c ((ramEnv c x).setenv g name []) (others es name)
  := by
  obtain ⟨r, heff, hok, hram⟩ := h.effect (x := x) hname hplain (by decide : IsStr [])
  rw [if_pos rfl] at heff
  cases heff with
  | refused _ hne hne' => exact (hok.elim hne hne').elim
  | deleted _ hwf _ => exact ⟨hram, hwf⟩
  | defined _ _ hne => exact absurd rfl hne
  | overflow hne => exact absurd rfl hne

/-- `setenv` leaves the other variables as they are. -/
theorem InRam.setenv (h : InRam c g es) (hname : IsName name) (hplain : Plain name)
    (hvalue : IsStr value) :
  ∃ es', InRam c ((ramEnv c x).setenv g name value) es'
    ∧ ∀ n, n ≠ name → lookup es' n = lookup es n
  := by
  obtain ⟨r, heff, hok, hram⟩ := h.effect (x := x) hname hplain hvalue
  cases heff with
  | refused _ hne hne' => exact (hok.elim hne hne').elim
  | deleted _ hwf _ => exact ⟨_, ⟨hram, hwf⟩, fun n hn => lookup_others hn⟩
  | defined _ _ _ _ hwf _ =>
    refine ⟨_, ⟨hram, hwf⟩, ?_⟩
    intro n hn
    rw [lookup_append_singleton, lookup_others hn, if_neg, Option.or_none]
    exact hn.symm
  | overflow _ _ hwf => exact ⟨_, ⟨hram, hwf⟩, fun n hn => lookup_others hn⟩

/-! ### Sessions -/

/-- The menu has not been left yet. -/
structure Open (env : E) (s : State E) : Prop where
  inv : Inv BootSelect.makeBootselectMenu s
  env : s.env = env
  leaveSelect : s.leaveSelect = none
  loaded : ∀ nr ∈ [0, 2, 3], s.loaded ⟨.listed 0, nr⟩ = true
  value : ∀ r, IsStr (s.value r)

/-- The variables that are saved. -/
theorem menuPerformSave_bootselect (ops : EnvOps E)
    (hloaded : ∀ nr ∈ [0, 2, 3], s.loaded ⟨.listed 0, nr⟩ = true) :
  (menuPerformSave ops BootSelect.makeBootselectMenu s).env
    = ops.setenv
        (ops.setenv
          (ops.setenv s.env (ascii "boot1") (Bios.bootSeq.getD (s.choice ⟨.listed 0, 0⟩) []))
          (ascii "os4_commandline") (s.value ⟨.listed 0, 2⟩))
        (ascii "bootargs") (s.value ⟨.listed 0, 3⟩)
  := by
  have hboot1 := hloaded 0 (by decide)
  have hcommandline := hloaded 2 (by decide)
  have hbootargs := hloaded 3 (by decide)
  simp [menuPerformSave, walk, save, BootSelect.makeBootselectMenu, Bios.formMenu, Bios.spacer,
    itemtypePopupAlloc, itemtypeStringCvarAlloc, itemtypeLabelAlloc, itemtypeFuncAlloc, hboot1,
    hcommandline, hbootargs]

theorem bootselect_selects :
  ∀ menu ∈ BootSelect.makeBootselectMenu, menu.Selects
  := by
  intro menu hmenu
  obtain rfl | rfl : menu = _ ∨ menu = _ := by
    simpa [BootSelect.makeBootselectMenu] using hmenu
  all_goals
    constructor
    all_goals simp [Bios.formMenu, Bios.spacer, itemtypePopupAlloc, itemtypeStringCvarAlloc,
      itemtypeLabelAlloc, itemtypeFuncAlloc]

theorem bootselect_wellFormed :
  WellFormed BootSelect.makeBootselectMenu
    ∧ Leads BootSelect.makeBootselectMenu BootSelect.bootMenuName
    ∧ ∀ k ∈ menuFormFindMenu BootSelect.makeBootselectMenu BootSelect.bootMenuName,
      Selectable BootSelect.makeBootselectMenu (.listed k)
  := by
  decide +kernel

/-- The environment without `boot2` and `boot3`. -/
def cleared (ops : EnvOps E) (env : E) : E :=
  ops.setenv (ops.setenv env (ascii "boot2") []) (ascii "boot3") []

/-- How the loop ends: an entry of the exit menu is chosen while the menu has not been left. -/
def Left (ops : EnvOps E) (env : E) (t : Session E) (arg : BootExit) : Prop :=
  ∃ s, Open env s
    ∧ (t.state, t.running) = leave ops BootSelect.makeBootselectMenu
        { myLeaveFunc ops arg s with currentMenu := s.popupSave }

/-- A session: the menu has not been left, or it was by one of these entries. -/
def InSession (ops : EnvOps E) (env : E) (P : BootExit → Prop) (t : Session E) : Prop :=
  t.running = true ∧ Open env t.state
    ∨ t.running = false ∧ ∃ arg, P arg ∧ Left ops env t arg

/-- The strings of the environment that the menu shows have room in its items. -/
def Short (ops : EnvOps E) (env : E) : Prop :=
  ∀ var ∈ [ascii "os4_commandline", ascii "bootargs"], ∀ value ∈ ops.getenv env var,
    value.length < valueSize

/-- The entry saves, or it deletes variables that are missing already. -/
def Allowed (ops : EnvOps E) (env : E) (arg : BootExit) : Prop :=
  arg ≠ .bootConfig → ops.getenv env (ascii "boot2") = none ∧ ops.getenv env (ascii "boot3") = none

/-- The condition on a key: the entry that it chooses is allowed, and there is room for what is
typed. -/
structure BootMeets (ops : EnvOps E) (env : E) (t : Session E) (p : Press) : Prop where
  choice : t.running = true →
    ∀ arg, Chooses BootSelect.makeBootselectMenu t.state p arg → Allowed ops env arg
  strings : t.running = true → ¬ TypesTooMuch BootSelect.makeBootselectMenu t.state p

theorem length_cvarStringLoad {env : E} {var defValue : List Byte}
    (hdef : defValue.length < valueSize) :
  (cvarStringLoad ops env var defValue).length < valueSize
    ↔ ∀ value ∈ ops.getenv env var, value.length < valueSize
  := by
  rw [cvarStringLoad]
  cases ops.getenv env var with
  | none => exact iff_of_true hdef fun _ h => nomatch h
  | some value =>
    constructor
    · rintro h value' hvalue
      rwa [← Option.some.inj hvalue]
    · exact fun h => h value rfl

/-- What is copied before the first key. -/
theorem showAndDoBootSelect_overrun (ops : EnvOps E) (env : E) :
  (showAndDoBootSelect ops env).state.overrun = false ↔ Short ops env
  := by
  have hoverrun : (showAndDoBootSelect ops env).state.overrun
      = (false || decide (valueSize
          ≤ (cvarStringLoad ops env (ascii "os4_commandline") (ascii "debuglevel=0")).length)
        || decide (valueSize
          ≤ (cvarStringLoad ops env (ascii "bootargs") (ascii "root=/dev/Sda3")).length)) := rfl
  rw [hoverrun, Bool.false_or, Bool.or_eq_false_iff, decide_eq_false_iff_not,
    decide_eq_false_iff_not, Nat.not_le, Nat.not_le, length_cvarStringLoad (by decide),
    length_cvarStringLoad (by decide), Short, List.forall_mem_cons, List.forall_mem_singleton]

theorem showAndDoBootSelect_open {env : E}
    (hvalue : ∀ name value, IsName name → ops.getenv env name = some value → IsStr value) :
  (showAndDoBootSelect ops env).running = true
    ∧ Open env (showAndDoBootSelect ops env).state
  := by
  obtain ⟨hwf, hleads, hsel⟩ := bootselect_wellFormed
  refine ⟨rfl, menuDo_inv hwf hleads hsel env, rfl, rfl, ?_, ?_⟩
  · intro nr hnr
    simp only [List.mem_cons, List.not_mem_nil, or_false] at hnr
    obtain rfl | rfl | rfl := hnr
    all_goals rfl
  · have hstr (name def' : List Byte) (hname : IsName name) (hdef : IsStr def') :
        IsStr ((ops.getenv env name).getD def') := by
      cases hget : ops.getenv env name with
      | none => exact hdef
      | some value => exact hvalue name value hname hget
    intro r
    have hvalues : (showAndDoBootSelect ops env).state.value
        = Function.update (Function.update (fun _ => []) ⟨.listed 0, 2⟩
            ((ops.getenv env (ascii "os4_commandline")).getD (ascii "debuglevel=0")))
          ⟨.listed 0, 3⟩ ((ops.getenv env (ascii "bootargs")).getD (ascii "root=/dev/Sda3")) := rfl
    rw [hvalues]
    by_cases hr : r = ⟨.listed 0, 3⟩
    · rw [hr, Function.update_self]
      exact hstr _ _ (by decide) (by decide)
    · rw [Function.update_of_ne hr]
      by_cases hr' : r = ⟨.listed 0, 2⟩
      · rw [hr', Function.update_self]
        exact hstr _ _ (by decide) (by decide)
      · rw [Function.update_of_ne hr']
        exact (by decide : IsStr [])

theorem Open.keeps {env : E} (h : Open env s) (hinv : Inv BootSelect.makeBootselectMenu s')
    (hkeeps : Keeps s s') :
  Open env s'
  := by
  refine ⟨hinv, hkeeps.env.trans h.env, hkeeps.leaveSelect.trans h.leaveSelect, ?_, ?_⟩
  · rw [hkeeps.loaded]
    exact h.loaded
  · exact fun r => hkeeps.value r (h.value r)

/-- A round of the loop. -/
theorem step_bootselect (ops : EnvOps E) {env : E} {t : Session E} {P : BootExit → Prop}
    (hP : t.running = true → ∀ arg, Chooses BootSelect.makeBootselectMenu t.state p arg → P arg)
    (ht : InSession ops env P t) :
  ∃ t', step ops BootSelect.makeBootselectMenu t p = some t' ∧ InSession ops env P t'
    ∧ (t.running = true → ∀ arg, Chooses BootSelect.makeBootselectMenu t.state p arg →
      t'.running = false ∧ Left ops env t' arg)
    ∧ (t'.state.overrun = true ↔ t.state.overrun = true
      ∨ t.running = true ∧ TypesTooMuch BootSelect.makeBootselectMenu t.state p)
  := by
  obtain ⟨hrun, hopen⟩ | hleft := ht
  · have hoverrun {t' : Session E} (hstep : step ops BootSelect.makeBootselectMenu t p = some t') :
        t'.state.overrun = true ↔ t.state.overrun = true
          ∨ t.running = true ∧ TypesTooMuch BootSelect.makeBootselectMenu t.state p := by
      rw [step_overrun ops bootselect_wellFormed.1 hopen.inv hstep]
      apply or_congr_right
      apply and_congr_right
      rintro -
      apply or_iff_right
      rintro ⟨name, hname, -⟩
      rw [leadsTo_eq_none bootselect_selects hopen.inv] at hname
      cases hname
    obtain ⟨s', heq, hkeeps, hnot⟩ | ⟨arg, hchooses, heq⟩ :=
      handle_cases ops bootselect_selects hopen.inv hopen.leaveSelect p
    · have hnone : ¬ OpensUnselectable BootSelect.makeBootselectMenu t.state p.key := by
        rintro ⟨name, hname, -⟩
        rw [leadsTo_eq_none bootselect_selects hopen.inv] at hname
        cases hname
      obtain ⟨s'', b, heq', hinv, -⟩ := handle_spec ops bootselect_wellFormed.1 hopen.inv p hnone
      obtain rfl : s' = s'' := congrArg Prod.fst (Option.some.inj (heq.symm.trans heq'))
      have hstep : step ops BootSelect.makeBootselectMenu t p = some ⟨s', true⟩ := by
        rw [step, if_pos hrun, heq]
        rfl
      exact ⟨⟨s', true⟩, hstep, .inl ⟨rfl, hopen.keeps hinv hkeeps⟩,
        fun _ arg hchooses => absurd hchooses (hnot arg), hoverrun hstep⟩
    · set left := leave ops BootSelect.makeBootselectMenu
        { myLeaveFunc ops arg t.state with currentMenu := t.state.popupSave } with hleft
      have hstep : step ops BootSelect.makeBootselectMenu t p = some ⟨left.1, left.2⟩ := by
        rw [step, if_pos hrun, heq]
        rfl
      have hstopped : left.2 = false := by
        rw [hleft]
        cases arg
        all_goals rfl
      have hends : Left ops env ⟨left.1, left.2⟩ arg := ⟨t.state, hopen, rfl⟩
      refine ⟨_, hstep, .inr ⟨hstopped, arg, ?_, hends⟩, ?_, hoverrun hstep⟩
      · exact hP hrun arg ((hchooses arg).mpr rfl)
      · intro _ arg' harg
        obtain rfl := (hchooses arg').mp harg
        exact ⟨hstopped, hends⟩
  · have hrun : ¬ t.running = true := by
      rw [hleft.1]
      exact Bool.false_ne_true
    rw [step, if_neg hrun]
    exact ⟨t, rfl, .inr hleft, fun h => absurd h hrun, (or_iff_left fun h => hrun h.1).symm⟩

/-- What a session may do to the variables: nothing, unless it is left to boot the configuration
chosen, which deletes `boot2` and `boot3` and saves `boot1` and the arguments.  Strings stay in
their items. -/
structure Leaves (ops : EnvOps E) (env : E) (t : Session E) : Prop where
  strings : t.state.overrun = false
  running : t.running = true → t.state.env = env
  aborted : t.running = false → t.state.leaveSelect ≠ some .andSave →
    ∀ name, IsName name → ops.getenv t.state.env name = ops.getenv env name
  booted : t.running = false → t.state.leaveSelect = some .andSave →
    ops.getenv t.state.env (ascii "boot2") = none ∧ ops.getenv t.state.env (ascii "boot3") = none
      ∧ ops.getenv t.state.env (ascii "boot1")
        = ops.getenv (ops.setenv (cleared ops env) (ascii "boot1")
            (Bios.bootSeq.getD (t.state.choice ⟨.listed 0, 0⟩) [])) (ascii "boot1")
      ∧ ∀ name, IsName name →
        name ∉ [ascii "boot1", ascii "boot2", ascii "boot3", ascii "os4_commandline",
          ascii "bootargs"] →
        ops.getenv t.state.env name = ops.getenv env name

theorem InRam.cleared (h : InRam c g es) :
  InRam c (Menu.cleared (ramEnv c x) g) (others (others es (ascii "boot2")) (ascii "boot3"))
  := (h.clear (by decide) (by decide)).clear (by decide) (by decide)

/-- What the environment is like when the menu has been left without saving. -/
theorem left_of_ne {env : E} {t : Session E} {arg : BootExit} (h : Left ops env t arg)
    (harg : arg ≠ .bootConfig) :
  t.state.leaveSelect = some .andNoSave ∧ t.state.env = cleared ops env
  := by
  obtain ⟨s, hopen, heq⟩ := h
  have hstate := congrArg Prod.fst heq
  dsimp only at hstate
  rw [hstate, ← hopen.env]
  cases arg with
  | bootConfig => exact absurd rfl harg
  | bootNoconfig => exact ⟨rfl, rfl⟩
  | goMenu => exact ⟨rfl, rfl⟩

/-- And when it has been left to boot the configuration. -/
theorem left_bootConfig {env : E} {t : Session E} (h : Left ops env t .bootConfig) :
  t.state.leaveSelect = some .andSave ∧ ∃ commandline bootargs, IsStr commandline
    ∧ IsStr bootargs ∧ t.state.env
      = ops.setenv
          (ops.setenv
            (ops.setenv (cleared ops env) (ascii "boot1")
              (Bios.bootSeq.getD (t.state.choice ⟨.listed 0, 0⟩) []))
            (ascii "os4_commandline") commandline)
          (ascii "bootargs") bootargs
  := by
  obtain ⟨s, hopen, heq⟩ := h
  have hcleared : cleared ops s.env = cleared ops env := by rw [hopen.env]
  set s₁ : State E := { myLeaveFunc ops .bootConfig s with currentMenu := s.popupSave }
  have hstate : t.state = menuPerformSave ops BootSelect.makeBootselectMenu s₁ :=
    congrArg Prod.fst heq
  have hloaded : ∀ nr ∈ [0, 2, 3], s₁.loaded ⟨.listed 0, nr⟩ = true := hopen.loaded
  have henv := menuPerformSave_bootselect ops hloaded
  obtain ⟨env', hsave⟩ := menuPerformSave_eq ops BootSelect.makeBootselectMenu s₁
  have hchoice : t.state.choice = s₁.choice := by rw [hstate, hsave]
  refine ⟨?_, _, _, hopen.value ⟨.listed 0, 2⟩, hopen.value ⟨.listed 0, 3⟩, ?_⟩
  · rw [hstate, hsave]
    rfl
  · rw [hchoice, hstate, henv, ← hcleared]
    rfl

/-- Leaving to boot the configuration does what it is for. -/
theorem left_booted {t : Session Globals} (h : InRam c g es)
    (hleft : Left (ramEnv c x) g t .bootConfig) :
  (ramEnv c x).getenv t.state.env (ascii "boot2") = none
    ∧ (ramEnv c x).getenv t.state.env (ascii "boot3") = none
    ∧ (ramEnv c x).getenv t.state.env (ascii "boot1")
      = (ramEnv c x).getenv ((ramEnv c x).setenv (cleared (ramEnv c x) g) (ascii "boot1")
          (Bios.bootSeq.getD (t.state.choice ⟨.listed 0, 0⟩) [])) (ascii "boot1")
    ∧ ∀ name, IsName name →
      name ∉ [ascii "boot1", ascii "boot2", ascii "boot3", ascii "os4_commandline",
        ascii "bootargs"] →
      (ramEnv c x).getenv t.state.env name = (ramEnv c x).getenv g name
  := by
  obtain ⟨-, commandline, bootargs, hstr, hstr', henv⟩ := left_bootConfig hleft
  have htext : IsStr (Bios.bootSeq.getD (t.state.choice ⟨.listed 0, 0⟩) []) := by
    have hall : ∀ text ∈ Bios.bootSeq, IsStr text := by decide
    rw [List.getD_eq_getElem?_getD]
    cases hget : Bios.bootSeq[t.state.choice ⟨.listed 0, 0⟩]? with
    | none => exact (by decide : IsStr [])
    | some text => exact hall text (List.mem_of_getElem? hget)
  have hboot1 : IsName (ascii "boot1") ∧ Plain (ascii "boot1") := by decide
  have hline : IsName (ascii "os4_commandline") ∧ Plain (ascii "os4_commandline") := by decide
  have hargs : IsName (ascii "bootargs") ∧ Plain (ascii "bootargs") := by decide
  have hcleared := h.cleared (x := x)
  obtain ⟨es₁, h₁, hkeep₁⟩ := hcleared.setenv (x := x) hboot1.1 hboot1.2 htext
  obtain ⟨es₂, h₂, hkeep₂⟩ := h₁.setenv (x := x) hline.1 hline.2 hstr
  obtain ⟨es₃, h₃, hkeep₃⟩ := h₂.setenv (x := x) hargs.1 hargs.2 hstr'
  rw [← henv] at h₃
  have hkeep {name : List Byte} (hname : name ∉ [ascii "boot1", ascii "os4_commandline",
      ascii "bootargs"]) :
      lookup es₃ name = lookup (others (others es (ascii "boot2")) (ascii "boot3")) name := by
    simp only [List.mem_cons, List.not_mem_nil, or_false, not_or] at hname
    rw [hkeep₃ _ hname.2.2, hkeep₂ _ hname.2.1, hkeep₁ _ hname.1]
  refine ⟨?_, ?_, ?_, ?_⟩
  · rw [h₃.getenv_eq (by decide), hkeep (by decide), lookup_others (by decide), lookup_others_self]
  · rw [h₃.getenv_eq (by decide), hkeep (by decide), lookup_others_self]
  · rw [h₃.getenv_eq hboot1.1, h₁.getenv_eq hboot1.1, hkeep₃ _ (by decide), hkeep₂ _ (by decide)]
  · intro name hname hnot
    simp only [List.mem_cons, List.not_mem_nil, or_false, not_or] at hnot
    have hnot' : name ∉ [ascii "boot1", ascii "os4_commandline", ascii "bootargs"] := by
      simp [hnot]
    rw [h₃.getenv_eq hname, h.getenv_eq hname, hkeep hnot', lookup_others hnot.2.2.1,
      lookup_others hnot.2.1]

/-- The keys that leave the menu by "Continue normal boot". -/
def continueNormalBoot : List Press :=
  [⟨.abort, []⟩, ⟨.nextItem, []⟩, ⟨.nextItem, []⟩, ⟨.activate, []⟩]

theorem exec_continueNormalBoot (ops : EnvOps E) (env : E) :
  ∃ t, Run.exec (step ops BootSelect.makeBootselectMenu) (showAndDoBootSelect ops env)
      continueNormalBoot = some t
    ∧ t.running = false ∧ t.state.leaveSelect = some .andNoSave ∧ t.state.env = cleared ops env
  := ⟨_, rfl, rfl, rfl, rfl⟩

/-- Deleting them leaves the variables as they are only if they are missing. -/
theorem missing_of_same (h : InRam c g es)
    (hsame : ∀ name, IsName name →
      (ramEnv c x).getenv (Menu.cleared (ramEnv c x) g) name = (ramEnv c x).getenv g name) :
  (ramEnv c x).getenv g (ascii "boot2") = none ∧ (ramEnv c x).getenv g (ascii "boot3") = none
  := by
  have hboot2 : IsName (ascii "boot2") := by decide
  have hboot3 : IsName (ascii "boot3") := by decide
  have hcleared := h.cleared (x := x)
  rw [← hsame _ hboot2, ← hsame _ hboot3, hcleared.getenv_eq hboot2, hcleared.getenv_eq hboot3,
    lookup_others (by decide), lookup_others_self, lookup_others_self]
  exact ⟨rfl, rfl⟩

/-- Deleting variables that are missing changes nothing. -/
theorem getenv_cleared (h : InRam c g es)
    (hboot2 : (ramEnv c x).getenv g (ascii "boot2") = none)
    (hboot3 : (ramEnv c x).getenv g (ascii "boot3") = none) (hname : IsName name) :
  (ramEnv c x).getenv (cleared (ramEnv c x) g) name = (ramEnv c x).getenv g name
  := by
  rw [h.getenv_eq (by decide), lookup_eq_none] at hboot2 hboot3
  rw [(h.cleared (x := x)).getenv_eq hname, h.getenv_eq hname, others_of_ne hboot2,
    others_of_ne hboot3]

theorem showAndDoBootSelect_inSession (h : InRam c g es) (P : BootExit → Prop) :
  InSession (ramEnv c x) g P (showAndDoBootSelect (ramEnv c x) g)
  := by
  apply Or.inl
  apply showAndDoBootSelect_open
  intro name value hname hget
  rw [h.getenv_eq hname] at hget
  obtain ⟨e, -, rfl⟩ := Option.map_eq_some_iff.mp hget
  exact e.isStr

/-- A session that was left by an entry that is allowed has left the variables as it should. -/
theorem leaves_of_inSession {t : Session Globals} (h : InRam c g es)
    (ht : InSession (ramEnv c x) g (Allowed (ramEnv c x) g) t)
    (hstrings : t.state.overrun = false) :
  Leaves (ramEnv c x) g t
  := by
  obtain ⟨hrun, hopen⟩ | ⟨hrun, arg, hallowed, hleft⟩ := ht
  · exact ⟨hstrings, fun _ => hopen.env, fun hnot => absurd hrun (by rw [hnot]; decide),
      fun hnot => absurd hrun (by rw [hnot]; decide)⟩
  · have hstopped : ¬ t.running = true := by
      rw [hrun]
      decide
    by_cases harg : arg = .bootConfig
    · subst harg
      exact ⟨hstrings, fun h => absurd h hstopped,
        fun _ hleave => absurd (left_bootConfig hleft).1 hleave, fun _ _ => left_booted h hleft⟩
    · obtain ⟨hboot2, hboot3⟩ := hallowed harg
      obtain ⟨hleave, henv⟩ := left_of_ne hleft harg
      refine ⟨hstrings, fun h => absurd h hstopped, fun _ _ name hname => ?_, fun _ hboot => ?_⟩
      · rw [henv, getenv_cleared h hboot2 hboot3 hname]
      · rw [hleave] at hboot
        cases hboot

/-- A step to a session that is as it should be meets the condition. -/
theorem bootMeets_of_leaves {t t' : Session Globals} (h : InRam c g es)
    (ht : InSession (ramEnv c x) g (fun _ => True) t)
    (hstep : step (ramEnv c x) BootSelect.makeBootselectMenu t p = some t')
    (hleaves : Leaves (ramEnv c x) g t') :
  BootMeets (ramEnv c x) g t p
  := by
  obtain ⟨t'', ht'', -, hends, hoverrun⟩ :=
    step_bootselect (p := p) (ramEnv c x) (fun _ _ _ => trivial) ht
  obtain rfl := Option.some.inj (hstep.symm.trans ht'')
  constructor
  · intro hrun arg hchooses harg
    obtain ⟨hstopped, hleft⟩ := hends hrun arg hchooses
    obtain ⟨hleave, henv⟩ := left_of_ne hleft harg
    apply missing_of_same h
    rw [← henv]
    apply hleaves.aborted hstopped
    rw [hleave]
    decide
  · intro hrun htypes
    have htrue := hoverrun.mpr (.inr ⟨hrun, htypes⟩)
    rw [hleaves.strings] at htrue
    cases htrue

/-- **Every run of the boot selection.**  The variables stay as they are unless it is left to boot
the configuration chosen, and strings stay in their items, exactly when no entry forgets `boot2` or
`boot3` without saving, and the strings are short. -/
theorem bootSelect_iff (c : Config) (x : Devices) (g : Globals) (es : List Entry)
    (hram : g.inRam = true) (h : Env.WellFormed c.envSize g.env.data es) (keys : List Press) :
  (∀ before, before <+: keys →
    ∃ t, Run.exec (step (ramEnv c x) BootSelect.makeBootselectMenu)
        (showAndDoBootSelect (ramEnv c x) g) before = some t
      ∧ Leaves (ramEnv c x) g t)
    ↔ Short (ramEnv c x) g
      ∧ Run.Along (step (ramEnv c x) BootSelect.makeBootselectMenu) (BootMeets (ramEnv c x) g)
        (showAndDoBootSelect (ramEnv c x) g) keys
  := by
  have hg : InRam c g es := ⟨hram, h⟩
  constructor
  · intro hall
    constructor
    · obtain ⟨t, ht, hleaves⟩ := hall [] List.nil_prefix
      obtain rfl := Option.some.inj ht
      exact (showAndDoBootSelect_overrun _ g).mp hleaves.strings
    · apply Run.along_of_forall
      rintro before p after t rfl ht
      obtain ⟨t₀, ht₀, hsession⟩ := Run.exec_preserves
        (fun t p ht => by
          obtain ⟨t', ht', hsession, -⟩ :=
            step_bootselect (p := p) (ramEnv c x) (fun _ _ _ => trivial) ht
          exact ⟨t', ht', hsession⟩)
        (showAndDoBootSelect_inSession (x := x) hg fun _ => True) before
      obtain rfl := Option.some.inj (ht.symm.trans ht₀)
      obtain ⟨t', ht', hleaves⟩ := hall (before ++ [p]) ⟨after, List.append_assoc _ _ _⟩
      rw [Run.exec_append, ht, Option.bind_some] at ht'
      obtain ⟨t₁, ht₁, hrest⟩ := Option.bind_eq_some_iff.mp ht'
      obtain rfl := Option.some.inj hrest
      exact bootMeets_of_leaves hg hsession ht₁ hleaves
  · rintro ⟨hshort, halong⟩ before ⟨after, rfl⟩
    obtain ⟨t, ht, hsession, hstrings⟩ := Run.exec_invariant
      (I := fun t => InSession (ramEnv c x) g (Allowed (ramEnv c x) g) t
        ∧ t.state.overrun = false)
      (fun t p ht hp => by
        obtain ⟨t', ht', hsession, -, hoverrun⟩ :=
          step_bootselect (ramEnv c x) hp.choice ht.1
        refine ⟨t', ht', hsession, Bool.eq_false_iff.mpr ?_⟩
        rw [Ne, hoverrun, ht.2]
        rintro (hfalse | ⟨hrun, htypes⟩)
        · cases hfalse
        · exact hp.strings hrun htypes)
      ⟨showAndDoBootSelect_inSession hg _, (showAndDoBootSelect_overrun _ g).mpr hshort⟩
      halong.of_append
    exact ⟨t, ht, leaves_of_inSession hg hsession hstrings⟩

/-- In an environment with another variable, all keys but those that are typed into a string. -/
theorem bootSelect_iff_other :
  (Globals.ofEntries sam460ex [entryAB]).inRam = true
    ∧ ∀ keys : List Press, (∀ p ∈ keys, p.typed = []) → ∀ before, before <+: keys →
      ∃ t, Run.exec (step (ramEnv sam460ex .accepting) BootSelect.makeBootselectMenu)
          (showAndDoBootSelect (ramEnv sam460ex .accepting) (.ofEntries sam460ex [entryAB])) before
          = some t
        ∧ Leaves (ramEnv sam460ex .accepting) (.ofEntries sam460ex [entryAB]) t
  := by
  have hwf : Env.WellFormed sam460ex.envSize (Globals.ofEntries sam460ex [entryAB]).env.data
      [entryAB] := wellFormed_ofEntries (by decide) (by decide)
  have hg : InRam sam460ex (.ofEntries sam460ex [entryAB]) [entryAB] := ⟨rfl, hwf⟩
  have hmissing {name : List Byte} (hname : IsName name) (hnone : lookup [entryAB] name = none) :
      (ramEnv sam460ex .accepting).getenv (.ofEntries sam460ex [entryAB]) name = none := by
    rw [hg.getenv_eq hname, hnone]
  refine ⟨rfl, fun keys hkeys => ?_⟩
  apply (bootSelect_iff sam460ex .accepting _ [entryAB] rfl hwf keys).mpr
  constructor
  · intro var hvar value hvalue
    have hnone :
        (ramEnv sam460ex .accepting).getenv (.ofEntries sam460ex [entryAB]) var = none := by
      simp only [List.mem_cons, List.not_mem_nil, or_false] at hvar
      obtain rfl | rfl := hvar
      · exact hmissing (by decide) (by decide)
      · exact hmissing (by decide) (by decide)
    rw [hnone] at hvalue
    cases hvalue
  · apply Run.along_of_forall
    rintro before p after t rfl -
    refine ⟨fun _ _ _ _ => ⟨hmissing (by decide) (by decide), hmissing (by decide) (by decide)⟩, ?_⟩
    rintro - ⟨m, -, r, -, ⟨kind, disabled⟩, -, hover⟩
    have htyped : p.typed = [] := hkeys p (List.mem_append_right _ List.mem_cons_self)
    cases kind with
    | stringCvar var defValue =>
      apply hover.2
      rw [htyped]
      trivial
    | _ => exact hover

/-- "USB HD" as the second boot device. -/
def entryBoot2 : Entry := ⟨ascii "boot2", ascii "usb", by decide, by decide⟩

/-- "Continue normal boot" forgets the second boot device. -/
theorem not_leaves_boot2 :
  ¬ ∀ (g : Globals) (es : List Entry), g.inRam = true →
    Env.WellFormed sam460ex.envSize g.env.data es → ∀ keys : List Press,
      ∃ t, Run.exec (step (ramEnv sam460ex .accepting) BootSelect.makeBootselectMenu)
          (showAndDoBootSelect (ramEnv sam460ex .accepting) g) keys = some t
        ∧ Leaves (ramEnv sam460ex .accepting) g t
  := by
  intro hall
  have hwf : Env.WellFormed sam460ex.envSize (Globals.ofEntries sam460ex [entryBoot2]).env.data
      [entryBoot2] := wellFormed_ofEntries (by decide) (by decide)
  have hg : InRam sam460ex (.ofEntries sam460ex [entryBoot2]) [entryBoot2] := ⟨rfl, hwf⟩
  obtain ⟨t, ht, hleaves⟩ := hall _ _ rfl hwf continueNormalBoot
  obtain ⟨t', ht', hrun, hleave, henv⟩ :=
    exec_continueNormalBoot (ramEnv sam460ex .accepting) (.ofEntries sam460ex [entryBoot2])
  obtain rfl := Option.some.inj (ht.symm.trans ht')
  have hsame := hleaves.aborted hrun (by rw [hleave]; decide)
  rw [henv] at hsame
  have hnone := (missing_of_same hg hsame).1
  rw [hg.getenv_eq (by decide)] at hnone
  exact absurd hnone (by decide)

end Menu
