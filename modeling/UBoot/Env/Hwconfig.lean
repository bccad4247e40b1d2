import UBoot.Lib.Memory
import UBoot.Lib.Occurrence
import UBoot.Lib.Walk

/-!
# Options for the hardware

`common/hwconfig.c`: the options in the variable `hwconfig`, or in the strings of the board and of
the processor, are separated by semicolons; after a colon an option has suboptions that are
separated by commas, and after an equals sign a suboption has a value.  One function looks for an
option and for a suboption.  It searches the string for the name, and looks at the characters
around what it finds.
-/

namespace Hwconfig

/-- A semicolon. -/
def semicolon : Byte := 0x3b

/-- A colon. -/
def colon : Byte := 0x3a

/-- A comma. -/
def comma : Byte := 0x2c

/-- An equals sign. -/
def equals : Byte := 0x3d

/-! ### The search -/

/-- `strstr`. -/
def strstr (haystack needle : List Byte) : Option ℕ := Occurrence.find needle haystack

/-- `strchr`. -/
def strchr (s : List Byte) (c : Byte) : Option ℕ := s.idxOf? c

/-- The arguments of `hwconfig_parse`; the string goes on behind `maxlen`. -/
structure Search where
  opts : List Byte
  maxlen : ℕ
  opt : List Byte
  stopch : Byte
  eqch : Byte

namespace Search

/-- `str`, if the search goes on from an offset in the string. -/
def strFrom (p : Search) (opts : ℕ) : Option ℕ :=
  (strstr (p.opts.drop opts) p.opt).map (opts + ·)

/-- What is found is a name: something that the search went on from, or something behind a
separator, and in front of a separator. -/
def IsName (p : Search) (opts str : ℕ) : Prop :=
  (str = opts ∨ p.opts[str - 1]? = some p.stopch)
  ∧ (p.opts[str + p.opt.length]? = some p.stopch ∨ p.opts[str + p.opt.length]? = some p.eqch
    ∨ p.opts[str + p.opt.length]? = none)

instance (p : Search) (opts str : ℕ) : Decidable (p.IsName opts str) :=
  inferInstanceAs (Decidable (_ ∧ _))

/-- The search goes on behind something that is no name. -/
def next (p : Search) (opts : ℕ) : Option ℕ :=
  (p.strFrom opts).bind fun str =>
    if p.maxlen < str + p.opt.length ∨ p.IsName opts str then none
    else some (str + p.opt.length)

/-- What is found when the search ends, unless it is too far away. -/
def last (p : Search) (opts : ℕ) : Option ℕ :=
  (p.strFrom opts).filter fun str => str + p.opt.length ≤ p.maxlen

/-- `hwconfig_parse` without `arglen`.  There is no result if the search makes `fuel` steps. -/
def hwconfigParse (p : Search) (fuel : ℕ) : Option (Option ℕ) :=
  (Walk.run p.next fuel 0).map p.last

/-- What `hwconfig_parse` returns for a name if there is `arglen`: where the argument begins, and
its length, an unsigned number. -/
def arg (p : Search) (str : ℕ) : Option (ℕ × ℕ) :=
  let end' := str + p.opt.length
  if p.opts[end']? ≠ some p.eqch then none
  else
    match strchr (p.opts.drop str) p.stopch with
    | none =>
      some (end' + 1,
        (min p.maxlen (p.opts.drop str).length + 2 ^ 32 - (p.opt.length + 1)) % 2 ^ 32)
    | some argEnd => some (end' + 1, (str + argEnd + 2 ^ 32 - (end' + 1)) % 2 ^ 32)

/-- `hwconfig_parse` with `arglen`. -/
def hwconfigParseArg (p : Search) (fuel : ℕ) : Option (Option (ℕ × ℕ)) :=
  (p.hwconfigParse fuel).map fun str => str.bind p.arg

end Search

/-! ### Options and suboptions -/

/-- The strings that may have options. -/
structure Strings where
  env : Option (List Byte)
  board : Option (List Byte)
  cpu : Option (List Byte)

/-- The string in which `__hwconfig` searches. -/
def Strings.chosen (strings : Strings) : Option (List Byte) :=
  strings.env.or (strings.board.or strings.cpu)

/-- The search for an option. -/
def searchOpt (s opt : List Byte) : Search := ⟨s, s.length, opt, semicolon, colon⟩

/-- The search for a suboption in an argument. -/
def searchSub (s : List Byte) (arg : ℕ × ℕ) (subopt : List Byte) : Search :=
  ⟨s.drop arg.1, arg.2, subopt, comma, equals⟩

variable (strings : Strings) (opt subopt : List Byte) (fuel : ℕ)

/-- `hwconfig`. -/
def hwconfig : Option Bool :=
  match strings.chosen with
  | none => some false
  | some s => ((searchOpt s opt).hwconfigParse fuel).map Option.isSome

/-- `hwconfig_arg`: where the argument begins, and its length. -/
def hwconfigArg : Option (Option (ℕ × ℕ)) :=
  match strings.chosen with
  | none => some none
  | some s => (searchOpt s opt).hwconfigParseArg fuel

/-- The text of an argument. -/
def argText (arg : ℕ × ℕ) : List Byte := ((strings.chosen.getD []).drop arg.1).take arg.2

/-- An argument of the right length is compared. -/
def compareArg (arg : List Byte) : Option (ℕ × ℕ) → Bool
  | none => false
  | some found => found.2 = arg.length ∧ argText strings found = arg

/-- `hwconfig_arg_cmp`. -/
def hwconfigArgCmp (arg : List Byte) : Option Bool :=
  (hwconfigArg strings opt fuel).map (compareArg strings arg)

/-- `hwconfig_sub`. -/
def hwconfigSub : Option Bool :=
  (hwconfigArg strings opt fuel).bind fun
    | none => some false
    | some arg =>
      ((searchSub (strings.chosen.getD []) arg subopt).hwconfigParse fuel).map Option.isSome

/-- `hwconfig_subarg`. -/
def hwconfigSubarg : Option (Option (ℕ × ℕ)) :=
  (hwconfigArg strings opt fuel).bind fun
    | none => some none
    | some arg =>
      ((searchSub (strings.chosen.getD []) arg subopt).hwconfigParseArg fuel).map fun
        | none => none
        | some found => some (arg.1 + found.1, found.2)

/-- `hwconfig_subarg_cmp`. -/
def hwconfigSubargCmp (subarg : List Byte) : Option Bool :=
  (hwconfigSubarg strings opt subopt fuel).map (compareArg strings subarg)

/-! ### The grammar -/

/-- A name is not empty, and contains no separators. -/
def IsName (name : List Byte) : Prop :=
  name ≠ [] ∧ ∀ b ∈ name, b ≠ 0 ∧ b ≠ semicolon ∧ b ≠ colon ∧ b ≠ comma ∧ b ≠ equals

/-- A value ends at a comma or at a semicolon. -/
def IsValue (value : List Byte) : Prop := ∀ b ∈ value, b ≠ 0 ∧ b ≠ semicolon ∧ b ≠ comma

/-- A name, perhaps with something behind it. -/
structure Field where
  name : List Byte
  value : Option (List Byte)

/-- The text of a field. -/
def Field.text (eqch : Byte) (f : Field) : List Byte :=
  f.name ++ match f.value with
    | none => []
    | some value => eqch :: value

/-- The text of several fields. -/
def joined (stopch eqch : Byte) : List Field → List Byte
  | [] => []
  | [f] => f.text eqch
  | f :: fs => f.text eqch ++ stopch :: joined stopch eqch fs

/-- The first field with a name. -/
def lookup (name : List Byte) (fs : List Field) : Option Field := fs.find? (·.name = name)

/-- Where the value of the first field with a name begins, and its length. -/
def lookupValue (eqch : Byte) (name : List Byte) : ℕ → List Field → Option (ℕ × ℕ)
  | _, [] => none
  | p, f :: fs =>
    if f.name = name then f.value.map fun value => (p + name.length + 1, value.length)
    else lookupValue eqch name (p + (f.text eqch).length + 1) fs

/-- A suboption. -/
structure Sub extends Field where
  isName : IsName name
  isValue : ∀ v ∈ value, IsValue v

/-- An option; it has an argument if it has suboptions. -/
structure Opt where
  name : List Byte
  subs : List Sub
  isName : IsName name

/-- The suboptions as fields. -/
def Opt.fields (o : Opt) : List Field := o.subs.map Sub.toField

/-- An option as a field. -/
def Opt.field (o : Opt) : Field :=
  ⟨o.name, if o.subs = [] then none else some (joined comma equals o.fields)⟩

/-- The text of several options. -/
def optsText (opts : List Opt) : List Byte := joined semicolon colon (opts.map Opt.field)

/-- Options that fit into memory. -/
structure Config where
  opts : List Opt
  length_lt : (optsText opts).length < 2 ^ 32

namespace Config

variable (cfg : Config)

/-- A string in the grammar. -/
def text : List Byte := optsText cfg.opts

/-- The first option with a name. -/
def find : Option Opt := cfg.opts.find? (·.name = opt)

/-- The option is there. -/
def has : Bool := (cfg.find opt).isSome

/-- The argument of the option. -/
def arg : Option (ℕ × ℕ) := lookupValue colon opt 0 (cfg.opts.map Opt.field)

/-- The option is there and has the suboption. -/
def hasSub : Bool := ((cfg.find opt).bind fun o => lookup subopt o.fields).isSome

/-- The value of the suboption. -/
def subarg : Option (ℕ × ℕ) :=
  (cfg.arg opt).bind fun arg =>
    (cfg.find opt).bind fun o => lookupValue equals subopt arg.1 o.fields

/-- The text of the argument of the option is the given one. -/
def argCmp (arg : List Byte) : Bool := ((cfg.find opt).bind fun o => o.field.value) = some arg

/-- The value of the suboption is the given one. -/
def subargCmp (value : List Byte) : Bool :=
  ((cfg.find opt).bind fun o => (lookup subopt o.fields).bind Field.value) = some value

end Config

/-- The functions answer like the grammar, whatever string has the options. -/
structure Answers (cfg : Config) (opt subopt : List Byte) (strings : Strings) : Prop where
  hwconfig : ∃ fuel, hwconfig strings opt fuel = some (cfg.has opt)
  arg : ∃ fuel, hwconfigArg strings opt fuel = some (cfg.arg opt)
  argCmp : ∀ arg, ∃ fuel, hwconfigArgCmp strings opt fuel arg = some (cfg.argCmp opt arg)
  sub : ∃ fuel, hwconfigSub strings opt subopt fuel = some (cfg.hasSub opt subopt)
  subarg : ∃ fuel, hwconfigSubarg strings opt subopt fuel = some (cfg.subarg opt subopt)
  subargCmp : ∀ subarg, ∃ fuel,
    hwconfigSubargCmp strings opt subopt fuel subarg = some (cfg.subargCmp opt subopt subarg)

end Hwconfig
