import UBoot.Menu.StringEdit

/-!
# The firmware menus

`board/ACube/menu`: a form is a list of menus, a menu a list of items, and a key press is handled
by the current item of the current menu.  The items of a form never change; what does is kept in a
`State`.  What is only drawn (texts, positions, help) is left out.
-/

namespace Menu

/-! ### Menus and items -/

/-- `MENUTYPE_FORM` and `MENUTYPE_POPUP`. -/
inductive MenuType where
  | form
  | popup
  deriving DecidableEq

/-- `EXIT_AND_SAVE` and the other arguments of `leave_func`. -/
inductive Exit where
  | andSave
  | andNoSave
  | not
  | savePermanent
  | toShell
  deriving DecidableEq

/-- `EXIT_BOOT_CONFIG` and the other arguments of `my_leave_func`. -/
inductive BootExit where
  | bootConfig
  | bootNoconfig
  | goMenu
  deriving DecidableEq

/-- A menu: the `k`-th of the form's `menu_list`, or the `menu_handle` of a popup item. -/
inductive MenuId where
  | listed (k : ℕ)
  | popupOf (menu : MenuId) (nr : ℕ)
  deriving DecidableEq

/-- A pointer to an item: the `nr`-th of the menu it was added to. -/
structure ItemRef where
  menu : MenuId
  nr : ℕ
  deriving DecidableEq

/-- What a function item calls: `item_func`, which chooses an entry of a popup item, `leave_func`,
or `my_leave_func`. -/
inductive Func where
  | choose (item : ItemRef) (param2 : ℕ)
  | leave (arg : Exit)
  | myLeave (arg : BootExit)
  deriving DecidableEq

/-- The item types.  A popup item has the `value_text`s of its entries. -/
inductive Kind where
  | func (func : Func)
  | submenu (menu : List Byte)
  | popup (choice : ℕ) (var : List Byte) (entries : List (List Byte))
  | stringCvar (var defValue : List Byte)
  | label
  deriving DecidableEq

/-- `item_t`. -/
structure ItemT where
  kind : Kind
  disabled : Bool
  deriving DecidableEq

/-- `menu_t`. -/
structure MenuT where
  type : MenuType
  menuTitle : List Byte
  parentMenu : Option (List Byte)
  itemList : List ItemT
  deriving DecidableEq

/-- `itemtype_func_alloc`. -/
def itemtypeFuncAlloc (func : Func) : ItemT := ⟨.func func, false⟩

/-- `itemtype_submenu_alloc`. -/
def itemtypeSubmenuAlloc (menu : List Byte) : ItemT := ⟨.submenu menu, false⟩

/-- `itemtype_popup_alloc`; its popup menu is `popupMenu`. -/
def itemtypePopupAlloc (choice : ℕ) (var : List Byte) (entries : List (List Byte)) : ItemT :=
  ⟨.popup choice var entries, false⟩

/-- `itemtype_string_cvar_alloc`. -/
def itemtypeStringCvarAlloc (var defValue : List Byte) : ItemT := ⟨.stringCvar var defValue, false⟩

/-- `itemtype_label_alloc`: the only items that are disabled. -/
def itemtypeLabelAlloc : ItemT := ⟨.label, true⟩

/-- The popup menu that `itemtype_popup_alloc` makes for the entries of `item`. -/
def popupMenu (item : ItemRef) (entries : List (List Byte)) : MenuT where
  type := .popup
  menuTitle := []
  parentMenu := none
  itemList := (List.range entries.length).map fun i => itemtypeFuncAlloc (.choose item i)

/-- The menu a pointer stands for. -/
def menuAt (menus : List MenuT) : MenuId → Option MenuT
  | .listed k => menus[k]?
  | .popupOf m i => do
    let menu ← menuAt menus m
    let item ← menu.itemList[i]?
    match item.kind with
    | .popup _ _ entries => some (popupMenu ⟨m, i⟩ entries)
    | _ => none

/-- The item a pointer stands for. -/
def itemAt (menus : List MenuT) (r : ItemRef) : Option ItemT :=
  (menuAt menus r.menu).bind fun menu => menu.itemList[r.nr]?

/-- `menu_form_find_menu`: the first menu with the title. -/
def menuFormFindMenu (menus : List MenuT) (name : List Byte) : Option ℕ :=
  menus.findIdx? fun menu => menu.menuTitle = name

/-! ### The state -/

/-- `getenv` and `setenv`, on an environment of type `E`. -/
structure EnvOps (E : Type) where
  getenv : E → List Byte → Option (List Byte)
  setenv : E → List Byte → List Byte → E

/-- The fields of the form, of its menus and of its items that change, and the environment. -/
structure State (E : Type) where
  currentMenu : Option MenuId
  currentItem : MenuId → Option ItemRef
  popupSave : Option MenuId
  popupItemSave : Option ItemRef
  /-- `choice` of the popup items. -/
  choice : ItemRef → ℕ
  /-- `value` of the string items. -/
  value : ItemRef → List Byte
  /-- Whether a string was longer than its `value`: other fields and other items are behind it. -/
  overrun : Bool
  /-- Whether `f_load` was called: it clears itself, and sets `f_save`. -/
  loaded : ItemRef → Bool
  /-- `leave_select`, with `none` for `-1`. -/
  leaveSelect : Option Exit
  /-- `return_value` of the boot selection. -/
  returnValue : ℕ
  env : E
  /-- What `saveenv` has written last. -/
  saved : Option E

variable {E : Type} (ops : EnvOps E) (menus : List MenuT)

/-- The items of a menu. -/
def items (m : MenuId) : List ItemT := (menuAt menus m).elim [] MenuT.itemList

/-- The first enabled item of a list that starts with the item number `i`. -/
def skipDisabled : List ItemT → ℕ → Option ℕ
  | [], _ => none
  | item :: rest, i => if item.disabled then skipDisabled rest (i + 1) else some i

/-- The last enabled item of a list before the item number `i`. -/
def skipDisabledBack (list : List ItemT) : ℕ → Option ℕ
  | 0 => none
  | i + 1 =>
    match list[i]? with
    | none => none
    | some item => if item.disabled then skipDisabledBack list i else some i

/-! ### Drawing -/

/-- `menu_layout`: a menu without a current item gets its first enabled one. -/
def menuLayout (m : MenuId) (s : State E) : State E :=
  if s.currentItem m = none then
    { s with currentItem :=
        Function.update s.currentItem m ((skipDisabled (items menus m) 0).map fun i => ⟨m, i⟩) }
  else s

/-- `menu_draw`; `needs_layout` is set by `new_menu` and never cleared. -/
def menuDraw (m : MenuId) (s : State E) : State E := menuLayout menus m s

/-- `menu_draw_form`. -/
def menuDrawForm (s : State E) : State E := s.currentMenu.elim s fun m => menuDraw menus m s

/-! ### Loading and saving -/

/-- `cvar_popup_load`: the entry with the value of the variable. -/
def cvarPopupLoad (env : E) (var : List Byte) (entries : List (List Byte)) : Option ℕ :=
  (ops.getenv env var).bind fun value => entries.findIdx? fun text => text = value

/-- The size of `value`. -/
def valueSize : ℕ := 512

/-- The string that `itemtype_string_cvar_load` copies to `value`. -/
def cvarStringLoad (env : E) (var defValue : List Byte) : List Byte :=
  (ops.getenv env var).getD defValue

/-- `f_load`: `itemtype_popup_load` and `itemtype_string_cvar_load`, once for each item. -/
def load (r : ItemRef) (item : ItemT) (s : State E) : State E :=
  match item.kind with
  | .popup _ var entries =>
    if s.loaded r then s
    else
      { s with
        choice := Function.update s.choice r
          ((cvarPopupLoad ops s.env var entries).getD (s.choice r))
        loaded := Function.update s.loaded r true }
  | .stringCvar var defValue =>
    if s.loaded r then s
    else
      { s with
        value := Function.update s.value r (cvarStringLoad ops s.env var defValue)
        overrun := s.overrun || decide (valueSize ≤ (cvarStringLoad ops s.env var defValue).length)
        loaded := Function.update s.loaded r true }
  | _ => s

/-- `f_save`: `itemtype_popup_save` and `itemtype_string_cvar_save`, of the items that were
loaded. -/
def save (r : ItemRef) (item : ItemT) (s : State E) : State E :=
  match item.kind with
  | .popup _ var entries =>
    if s.loaded r then { s with env := ops.setenv s.env var (entries.getD (s.choice r) []) } else s
  | .stringCvar var _ =>
    if s.loaded r then { s with env := ops.setenv s.env var (s.value r) } else s
  | _ => s

/-- A walk over the items of the `k`-th menu. -/
def walk (f : ItemRef → ItemT → State E → State E) (k : ℕ) (menu : MenuT) (s : State E) :
    State E :=
  menu.itemList.zipIdx.foldl (fun s p => f ⟨.listed k, p.2⟩ p.1 s) s

/-- `menu_perform_save`. -/
def menuPerformSave (s : State E) : State E :=
  menus.zipIdx.foldl (fun s p => walk (save ops) p.2 p.1 s) s

/-! ### Changing the menu -/

/-- `menu_form_set_menu` for the `k`-th menu. -/
def menuFormSetMenu (k : ℕ) (s : State E) : State E :=
  let s := (menus[k]?).elim s fun menu => walk (load ops) k menu s
  menuDrawForm menus { s with currentMenu := some (.listed k) }

/-- `menu_form_switch_menu`. -/
def menuFormSwitchMenu (name : List Byte) (s : State E) : State E :=
  (menuFormFindMenu menus name).elim s fun k => menuFormSetMenu ops menus k s

/-- The type of a menu. -/
def typeOf (m : MenuId) : Option MenuType := (menuAt menus m).map MenuT.type

/-- `menu_form_popup`. -/
def menuFormPopup (m : MenuId) (s : State E) : State E :=
  if typeOf menus m = some .popup then
    menuDraw menus m
      { s with
        popupSave := s.currentMenu
        popupItemSave := s.currentMenu.bind s.currentItem
        currentMenu := some m }
  else s

/-- `menu_form_popup_name`. -/
def menuFormPopupName (name : List Byte) (s : State E) : State E :=
  (menuFormFindMenu menus name).elim s fun k => menuFormPopup menus (.listed k) s

/-- `menu_form_popdown`. -/
def menuFormPopdown (s : State E) : State E :=
  if s.currentMenu.bind (typeOf menus) = some .popup then
    match s.popupSave with
    | none => { s with currentMenu := none }
    | some m =>
      menuDraw menus m
        { s with
          currentMenu := some m
          currentItem := Function.update s.currentItem m s.popupItemSave }
  else s

/-- `menu_set_active_item`: the item just behind the last one is `NULL`. -/
def menuSetActiveItem (m : MenuId) (nr : ℕ) (s : State E) : State E :=
  if nr < (items menus m).length then
    { s with currentItem := Function.update s.currentItem m (some ⟨m, nr⟩) }
  else if nr = (items menus m).length then
    { s with currentItem := Function.update s.currentItem m none }
  else s

/-! ### Keys -/

/-- The keys that `video_get_key` tells apart for the menus. -/
inductive Key where
  | nextOption
  | prevOption
  | nextItem
  | prevItem
  | abort
  | activate
  | other
  deriving DecidableEq

/-- A key press, and the keys that `menu_string_edit` is given when the key opens it. -/
structure Press where
  key : Key
  typed : List ℤ
  deriving DecidableEq

/-- The text that `menu_string_edit` leaves in a buffer that is large enough, by
`stringEdit_iff`. -/
def edited (string : List Byte) (typed : List ℤ) : List Byte :=
  (typed.foldl (fun l key => (Line.step string l key).getD l) (Line.start string)).text

/-- The buffer is large enough, whatever is typed before the editor returns. -/
def EditFits (string : List Byte) (typed : List ℤ) : Prop :=
  Run.Along (Line.step string) (Line.Room valueSize) (Line.start string) typed

instance (string : List Byte) (typed : List ℤ) : Decidable (EditFits string typed) :=
  Run.decidableAlong _ _

/-- `my_leave_func`, which ends with a call of `leave_func`. -/
def myLeaveFunc (arg : BootExit) (s : State E) : State E :=
  let env := ops.setenv s.env (ascii "boot2") []
  let env := ops.setenv env (ascii "boot3") []
  let s := { s with env := env }
  match arg with
  | .bootConfig => { s with returnValue := 0, leaveSelect := some .andSave }
  | .bootNoconfig => { s with returnValue := 0, leaveSelect := some .andNoSave }
  | .goMenu => { s with returnValue := 1, leaveSelect := some .andNoSave }

/-- `itemtype_func_invoke`. -/
def itemtypeFuncInvoke (func : Func) (p : Press) (s : State E) : State E :=
  match p.key, func with
  | .activate, .choose item param2 => { s with choice := Function.update s.choice item param2 }
  | .activate, .leave arg => { s with leaveSelect := some arg }
  | .activate, .myLeave arg => myLeaveFunc ops arg s
  | _, _ => s

/-- `itemtype_submenu_invoke`. -/
def itemtypeSubmenuInvoke (menName : List Byte) (p : Press) (s : State E) : State E :=
  match p.key with
  | .activate | .nextOption | .prevOption => menuFormSwitchMenu ops menus menName s
  | _ => s

/-- `itemtype_popup_invoke`; `max_choice` is the last entry. -/
def itemtypePopupInvoke (r : ItemRef) (entries : List (List Byte)) (p : Press) (s : State E) :
    State E :=
  match p.key with
  | .activate =>
    menuFormPopup menus (.popupOf r.menu r.nr)
      (menuSetActiveItem menus (.popupOf r.menu r.nr) (s.choice r) s)
  | .nextOption =>
    if s.choice r + 1 < entries.length then
      { s with choice := Function.update s.choice r (s.choice r + 1) }
    else s
  | .prevOption =>
    if 0 < s.choice r then { s with choice := Function.update s.choice r (s.choice r - 1) } else s
  | _ => s

/-- `itemtype_string_cvar_invoke`; the other keys scroll the text. -/
def itemtypeStringCvarInvoke (r : ItemRef) (p : Press) (s : State E) : State E :=
  match p.key with
  | .activate =>
    { s with
      value := Function.update s.value r (edited (s.value r) p.typed)
      overrun := s.overrun || decide (¬ EditFits (s.value r) p.typed) }
  | _ => s

/-- `f_invoke`. -/
def invoke (r : ItemRef) (item : ItemT) (p : Press) (s : State E) : State E :=
  match item.kind with
  | .func func => itemtypeFuncInvoke ops func p s
  | .submenu menName => itemtypeSubmenuInvoke ops menus menName p s
  | .popup _ _ entries => itemtypePopupInvoke menus r entries p s
  | .stringCvar _ _ => itemtypeStringCvarInvoke r p s
  | .label => s

/-- The switch over `leave_select` after a popup was left with `KEY_ACTIVATE`, and whether the
loop goes on. -/
def leave (s : State E) : State E × Bool :=
  match s.leaveSelect with
  | none => (s, true)
  | some .andNoSave => (s, false)
  | some .savePermanent =>
    let s := menuPerformSave ops menus s
    ({ s with saved := some s.env }, false)
  | some .andSave => (menuPerformSave ops menus s, false)
  | some .not => (s, true)
  | some .toShell =>
    let mboot := ops.getenv s.env (ascii "menuboot_cmd")
    let cmd := if mboot.any fun cmd => 2 < cmd.length then ascii "noboot" else ascii "boota"
    ({ s with env := ops.setenv s.env (ascii "menuboot_cmd") cmd }, false)

/-- The current item of `m` becomes the item number `next`, if there is one. -/
def moveTo (m : MenuId) (c : ItemRef) (next : Option ℕ) (s : State E) : State E :=
  next.elim s fun i =>
    { s with currentItem := Function.update s.currentItem m (some ⟨c.menu, i⟩) }

/-- `menu_handle_single_key`: the new state, and whether the loop goes on.  `none` is a pointer
that is followed although it is `NULL`. -/
def menuHandleSingleKey (s : State E) (p : Press) : Option (State E × Bool) := do
  let m ← s.currentMenu
  let menu ← menuAt menus m
  match p.key with
  | .nextItem => do
    let c ← s.currentItem m
    let list := (items menus c.menu).drop (c.nr + 1)
    some (moveTo m c (skipDisabled list (c.nr + 1)) s, true)
  | .prevItem => do
    let c ← s.currentItem m
    some (moveTo m c (skipDisabledBack (items menus c.menu) c.nr) s, true)
  | .abort =>
    if menu.type = .popup then some (menuFormPopdown menus s, true)
    else
      match menu.parentMenu with
      | some parent => some (menuFormSwitchMenu ops menus parent s, true)
      | none => some (menuFormPopupName menus (ascii "Exit Menu") s, true)
  | _ =>
    let s := (s.currentItem m).elim s fun c =>
      (itemAt menus c).elim s fun item => invoke ops menus c item p s
    if p.key = .activate ∧ menu.type = .popup then
      some (leave ops menus (menuFormPopdown menus s))
    else some (s, true)

/-! ### The loop -/

/-- The loop of `menu_do`. -/
structure Session (E : Type) where
  state : State E
  running : Bool

/-- One round of the loop; there is none after it has ended. -/
def step (t : Session E) (p : Press) : Option (Session E) :=
  if t.running then
    (menuHandleSingleKey ops menus t.state p).map fun r => ⟨r.1, r.2⟩
  else some t

/-- A form just made: the popup items have the choice they were made with. -/
def newState (env : E) : State E where
  currentMenu := none
  currentItem _ := none
  popupSave := none
  popupItemSave := none
  choice r :=
    match (itemAt menus r).map ItemT.kind with
    | some (.popup choice _ _) => choice
    | _ => 0
  value _ := []
  overrun := false
  loaded _ := false
  leaveSelect := none
  returnValue := 0
  env := env
  saved := none

/-- `make_leave_menu`. -/
def makeLeaveMenu : MenuT where
  type := .popup
  menuTitle := ascii "Exit Menu"
  parentMenu := none
  itemList := [
    itemtypeFuncAlloc (.leave .savePermanent),
    itemtypeFuncAlloc (.leave .andSave),
    itemtypeFuncAlloc (.leave .andNoSave),
    itemtypeFuncAlloc (.leave .toShell)]

/-- `menu_form_switch_menu` to the first menu, and `menu_do` up to its loop. -/
def menuDo (first : List Byte) (env : E) : Session E where
  state := menuDrawForm menus (menuFormSwitchMenu ops menus first (newState menus env))
  running := true

end Menu
