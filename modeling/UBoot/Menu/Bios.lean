import UBoot.Menu.Menu

/-!
# The preferences menu

`board/ACube/menu/bios_menu.c` for the Sam460ex.  The menus depend on the model of the board, and
on whether a graphic card was found.
-/

namespace Menu

namespace Bios

/-! ### Names -/

/-- `MAIN_MENU_NAME`. -/
def mainMenuName : List Byte := ascii "U-BOOT Preferences Menu"

/-- `PCIE_SATA_NAME`. -/
def pcieSataName : List Byte := ascii "PCI-E 1x / SATA-2"

/-- `DDR2_NAME`. -/
def ddr2Name : List Byte := ascii "DDR2 Setup"

/-- `BOOTSEQ_NAME`. -/
def bootseqName : List Byte := ascii "Boot Sequence"

/-- `NETBOOT_NAME`. -/
def netbootName : List Byte := ascii "Network Boot Options"

/-- `SYSTEM_INFO_NAME`. -/
def systemInfoName : List Byte := ascii "System Information"

/-- `AMIGABOOT_NAME`. -/
def amigabootName : List Byte := ascii "OS MultiBoot Options"

/-- `VIDEO_NAME`. -/
def videoName : List Byte := ascii "Video Options"

/-! ### Tables of choices -/

/-- `pcie_sata_select_entries`. -/
def pcieSataSelectEntries : List (List Byte) := [ascii "sata2", ascii "pci-e"]

/-- `ddr2_select_entries`. -/
def ddr2SelectEntries : List (List Byte) := [ascii "0", ascii "1", ascii "2", ascii "3"]

/-- `video_select_entries`. -/
def videoSelectEntries : List (List Byte) := [ascii "sm502", ascii "pci"]

/-- `silent_select_entries`. -/
def silentSelectEntries : List (List Byte) := [ascii "0", ascii "1"]

/-- `x86emu_select_entries`. -/
def x86emuSelectEntries : List (List Byte) := [ascii "0", ascii "1", ascii "2", ascii "3"]

/-- `boot_seq`. -/
def bootSeq : List (List Byte) := [
  ascii "psii", ascii "psiicdrom", ascii "ssii", ascii "ssiicdrom", ascii "s4sii",
  ascii "s4siicdrom", ascii "sata2-460", ascii "ucdrom", ascii "usb", ascii "net", ascii ""]

/-! ### Menus -/

/-- `SPACER`. -/
def spacer : ItemT := itemtypeLabelAlloc

/-- A form menu. -/
def formMenu (title : List Byte) (parent : Option (List Byte)) (list : List ItemT) : MenuT where
  type := .form
  menuTitle := title
  parentMenu := parent
  itemList := list

/-- `make_main_menu`. -/
def makeMainMenu (modelValue : Byte) : MenuT :=
  formMenu mainMenuName none (
    [itemtypeSubmenuAlloc videoName]
    ++ (if modelValue = 0 then [itemtypeSubmenuAlloc pcieSataName] else [])
    ++ [itemtypeSubmenuAlloc ddr2Name,
      itemtypeSubmenuAlloc bootseqName,
      itemtypeSubmenuAlloc systemInfoName])

/-- `make_pcie_sata_menu`. -/
def makePcieSataMenu : MenuT :=
  formMenu pcieSataName (some mainMenuName)
    [itemtypePopupAlloc 0 (ascii "serdes") pcieSataSelectEntries]

/-- `make_ddr2_menu`. -/
def makeDdr2Menu : MenuT :=
  formMenu ddr2Name (some mainMenuName)
    [itemtypePopupAlloc 0 (ascii "ddr2_boost") ddr2SelectEntries]

/-- `make_video_menu`. -/
def makeVideoMenu (modelValue : Byte) : MenuT :=
  formMenu videoName (some mainMenuName) (
    (if modelValue = 0 then [itemtypePopupAlloc 0 (ascii "video_activate") videoSelectEntries]
      else [])
    ++ [itemtypePopupAlloc 0 (ascii "hush") silentSelectEntries,
      itemtypePopupAlloc 1 (ascii "x86emu") x86emuSelectEntries])

/-- `make_netboot_menu`. -/
def makeNetbootMenu : MenuT :=
  formMenu netbootName (some bootseqName) [
    itemtypeStringCvarAlloc (ascii "ipaddr") (ascii ""),
    itemtypeStringCvarAlloc (ascii "serverip") (ascii "")]

/-- `make_amigaboot_menu`. -/
def makeAmigabootMenu : MenuT :=
  formMenu amigabootName (some bootseqName) [
    itemtypePopupAlloc 0 (ascii "boot1") bootSeq,
    itemtypePopupAlloc 2 (ascii "boot2") bootSeq,
    itemtypePopupAlloc 4 (ascii "boot3") bootSeq,
    spacer,
    itemtypeStringCvarAlloc (ascii "boota_timeout") (ascii "3")]

/-- `make_boot_menu`. -/
def makeBootMenu : MenuT :=
  formMenu bootseqName (some mainMenuName) [
    itemtypeStringCvarAlloc (ascii "menuboot_delay") (ascii "3"),
    spacer,
    itemtypeStringCvarAlloc (ascii "os4_commandline") (ascii "debuglevel=0"),
    itemtypeStringCvarAlloc (ascii "bootargs") (ascii "root=/dev/sda3"),
    spacer,
    itemtypeSubmenuAlloc netbootName,
    itemtypeSubmenuAlloc amigabootName]

/-- `make_sysinfo_menu`: the processor, its four clocks, the memory, and the graphic card if there
is one. -/
def makeSysinfoMenu (chipsetName : Bool) : MenuT :=
  formMenu systemInfoName (some mainMenuName) (
    [itemtypeLabelAlloc, itemtypeLabelAlloc, itemtypeLabelAlloc, itemtypeLabelAlloc,
      itemtypeLabelAlloc, spacer, itemtypeLabelAlloc, itemtypeLabelAlloc]
    ++ if chipsetName then [spacer, itemtypeLabelAlloc, itemtypeLabelAlloc] else [])

/-- `make_menus`, and the menu that `menu_do` adds. -/
def makeMenus (modelValue : Byte) (chipsetName : Bool) : List MenuT := [
  makeVideoMenu modelValue,
  makePcieSataMenu,
  makeDdr2Menu,
  makeMainMenu modelValue,
  makeNetbootMenu,
  makeAmigabootMenu,
  makeBootMenu,
  makeSysinfoMenu chipsetName,
  makeLeaveMenu]

end Bios

/-- `show_and_do_bios_menu`, up to the first key. -/
def showAndDoBiosMenu {E : Type} (ops : EnvOps E) (modelValue : Byte) (chipsetName : Bool)
    (env : E) : Session E :=
  menuDo ops (Bios.makeMenus modelValue chipsetName) Bios.mainMenuName env

end Menu
