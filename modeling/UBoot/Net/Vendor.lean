import UBoot.Net.Bootp

/-!
# The vendor area of a BOOTP reply

`net/bootp.c` without `CONFIG_CMD_DHCP`: `BootpVendorProcess` takes the options of the area one
after the other and leaves what it finds in the variables of `net.c`.  An area is written by
`area`, as a list of options and the option that ends it.
-/

namespace Bootp

/-- The variables that the options set.  The texts are arrays with a NUL after the text. -/
structure Vendor where
  netOurSubnetMask : Word
  netOurGatewayIP : Word
  netOurDNSIP : Word
  netOurHostName : ℕ → Byte
  netOurRootPath : ℕ → Byte
  netOurNISDomain : ℕ → Byte
  netBootFileSize : BitVec 16

/-- A text is copied to the array `buffer` of `maxlen` characters, unless there is one already. -/
def copyText (buffer : ℕ → Byte) (maxlen : ℕ) (mem : ℕ → Byte) (p size : ℕ) : ℕ → Byte :=
  if buffer 0 = 0 then Memory.store buffer 0 (Memory.read mem p (truncateSz maxlen size) ++ [0])
  else buffer

/-- `BootpVendorFieldProcess`. -/
def bootpVendorFieldProcess (c : Vendor) (mem : ℕ → Byte) (ext : ℕ) : Vendor :=
  let size := (mem (ext + 1)).toNat
  let c := { c with netBootFileSize := 0 }
  match mem ext with
  | 1 => if c.netOurSubnetMask = 0 then { c with netOurSubnetMask := long mem (ext + 2) } else c
  | 3 => if c.netOurGatewayIP = 0 then { c with netOurGatewayIP := long mem (ext + 2) } else c
  | 6 => if c.netOurDNSIP = 0 then { c with netOurDNSIP := long mem (ext + 2) } else c
  | 12 => { c with netOurHostName := copyText c.netOurHostName 32 mem (ext + 2) size }
  | 13 =>
    if size = 2 then
      { c with netBootFileSize := (bytesWord (Memory.read mem (ext + 2) 2)).setWidth 16 }
    else if size = 4 then { c with netBootFileSize := (long mem (ext + 2)).setWidth 16 }
    else c
  | 17 => { c with netOurRootPath := copyText c.netOurRootPath 64 mem (ext + 2) size }
  | 40 => { c with netOurNISDomain := copyText c.netOurNISDomain 32 mem (ext + 2) size }
  | _ => c

/-- The loop of `BootpVendorProcess`. -/
def bootpVendorLoop (mem : ℕ → Byte) (stop : ℕ) : ℕ → ℕ → Vendor → Vendor
  | 0, _, c => c
  | fuel + 1, ext, c =>
    if ext < stop ∧ mem ext ≠ 0xff then
      if mem ext = 0 then bootpVendorLoop mem stop fuel (ext + 1) c
      else
        let opt := ext
        let ext := ext + (mem (ext + 1)).toNat + 2
        bootpVendorLoop mem stop fuel ext
          (if ext ≤ stop then bootpVendorFieldProcess c mem opt else c)
    else c

/-- `BootpVendorProcess`.  Every step takes a byte at least, so that `size` steps are enough. -/
def bootpVendorProcess (c : Vendor) (mem : ℕ → Byte) (ext size : ℕ) : Vendor :=
  bootpVendorLoop mem (ext + size) size ext c

/-! ### Lists of options -/

/-- An option with a value.  The codes 0 and 255 are those of the options without one. -/
structure VendorOption where
  code : Byte
  value : List Byte
  code_ne_pad : code ≠ 0
  code_ne_end : code ≠ 255
  length_lt : value.length < 256

namespace VendorOption

/-- An option in the packet. -/
def bytes (o : VendorOption) : List Byte := o.code :: UInt8.ofNat o.value.length :: o.value

/-- The number that is the value of the option with the size of the file, in one of the two
formats that there are. -/
def fileSize (o : VendorOption) : Option ℕ :=
  if o.code = 13 ∧ (o.value.length = 2 ∨ o.value.length = 4) then some (bytesWord o.value).toNat
  else none

@[simp]
theorem length_bytes (o : VendorOption) :
  o.bytes.length = o.value.length + 2
  := rfl

end VendorOption

/-- A list of options in the packet. -/
def encode (os : List VendorOption) : List Byte := os.flatMap VendorOption.bytes

/-- The packet with a list of options at `ext`. -/
def area (m : ℕ → Byte) (ext : ℕ) (os : List VendorOption) : ℕ → Byte :=
  Memory.store m ext (encode os ++ [255])

/-- The variables have the same values. -/
structure SameValues (c c' : Vendor) : Prop where
  netOurSubnetMask : c.netOurSubnetMask = c'.netOurSubnetMask
  netOurGatewayIP : c.netOurGatewayIP = c'.netOurGatewayIP
  netOurDNSIP : c.netOurDNSIP = c'.netOurDNSIP
  netOurHostName : c.netOurHostName = c'.netOurHostName
  netOurRootPath : c.netOurRootPath = c'.netOurRootPath
  netBootFileSize : c.netBootFileSize = c'.netBootFileSize

/-- The variable for the address that is the value of an option. -/
def Vendor.address (c : Vendor) (code : Byte) : Option Word :=
  if code = 1 then some c.netOurSubnetMask
  else if code = 3 then some c.netOurGatewayIP
  else if code = 6 then some c.netOurDNSIP
  else none

theorem SameValues.address {c c' : Vendor} (h : SameValues c c') (code : Byte) :
  c.address code = c'.address code
  := by
  simp only [Vendor.address, h.netOurSubnetMask, h.netOurGatewayIP, h.netOurDNSIP]

/-- The value of the option is too short for the address that is read from it. -/
def Short (c : Vendor) (o : VendorOption) : Prop := c.address o.code = some 0 ∧ o.value.length < 4

/-! ### One option -/

/-- An option sets the variable that belongs to its code, and the size of the file to 0. -/
theorem bootpVendorFieldProcess_eq (c : Vendor) (mem : ℕ → Byte) (ext : ℕ) :
  bootpVendorFieldProcess c mem ext =
    { netOurSubnetMask :=
        if mem ext = 1 ∧ c.netOurSubnetMask = 0 then long mem (ext + 2) else c.netOurSubnetMask
      netOurGatewayIP :=
        if mem ext = 3 ∧ c.netOurGatewayIP = 0 then long mem (ext + 2) else c.netOurGatewayIP
      netOurDNSIP := if mem ext = 6 ∧ c.netOurDNSIP = 0 then long mem (ext + 2) else c.netOurDNSIP
      netOurHostName :=
        if mem ext = 12 then copyText c.netOurHostName 32 mem (ext + 2) (mem (ext + 1)).toNat
        else c.netOurHostName
      netOurRootPath :=
        if mem ext = 17 then copyText c.netOurRootPath 64 mem (ext + 2) (mem (ext + 1)).toNat
        else c.netOurRootPath
      netOurNISDomain :=
        if mem ext = 40 then copyText c.netOurNISDomain 32 mem (ext + 2) (mem (ext + 1)).toNat
        else c.netOurNISDomain
      netBootFileSize :=
        if mem ext = 13 ∧ ((mem (ext + 1)).toNat = 2 ∨ (mem (ext + 1)).toNat = 4) then
          (bytesWord (Memory.read mem (ext + 2) (mem (ext + 1)).toNat)).setWidth 16
        else 0 }
  := by
  unfold bootpVendorFieldProcess
  generalize mem ext = code
  split
  · by_cases h : c.netOurSubnetMask = 0#32 <;> simp [h]
  · by_cases h : c.netOurGatewayIP = 0#32 <;> simp [h]
  · by_cases h : c.netOurDNSIP = 0#32 <;> simp [h]
  · simp
  · by_cases h2 : (mem (ext + 1)).toNat = 2
    · simp [h2]
    · by_cases h4 : (mem (ext + 1)).toNat = 4 <;> simp [h2, h4, long]
  · simp
  · simp
  · simp_all

/-- An option in the packet leaves every address that is not its own. -/
theorem address_bootpVendorFieldProcess {c : Vendor} {mem : ℕ → Byte} {ext : ℕ} {code : Byte} :
  (bootpVendorFieldProcess c mem ext).address code =
    if mem ext = code ∧ c.address code = some 0 then some (long mem (ext + 2)) else c.address code
  := by
  rw [bootpVendorFieldProcess_eq]
  unfold Vendor.address
  by_cases h1 : code = 1
  · simp [h1, apply_ite some]
  · by_cases h3 : code = 3
    · simp [h3, apply_ite some]
    · by_cases h6 : code = 6
      · simp [h6, apply_ite some]
      · simp [h1, h3, h6]

/-- What an option does is in its bytes, but for an address that is read. -/
theorem bootpVendorFieldProcess_congr {c : Vendor} {mem mem' : ℕ → Byte} {ext ext' : ℕ}
    {o : VendorOption} (h : Memory.Holds mem ext o.bytes) (h' : Memory.Holds mem' ext' o.bytes)
    (haddr : c.address o.code = some 0 → long mem (ext + 2) = long mem' (ext' + 2)) :
  bootpVendorFieldProcess c mem ext = bootpVendorFieldProcess c mem' ext'
  := by
  obtain ⟨hcode, hlen, hvalue⟩ := h
  obtain ⟨hcode', hlen', hvalue'⟩ := h'
  have hn : (UInt8.ofNat o.value.length).toNat = o.value.length := by
    have := o.length_lt
    simp [Nat.mod_eq_of_lt this]
  have hread : ∀ n ≤ o.value.length, Memory.read mem (ext + 2) n = Memory.read mem' (ext' + 2) n := by
    intro n hn
    rw [hvalue.read_take hn, hvalue'.read_take hn]
  have htext : ∀ (buffer : ℕ → Byte) (maxlen : ℕ),
      copyText buffer maxlen mem (ext + 2) o.value.length
        = copyText buffer maxlen mem' (ext' + 2) o.value.length := by
    intro buffer maxlen
    have htrunc : truncateSz maxlen o.value.length ≤ o.value.length := by
      unfold truncateSz
      split <;> omega
    rw [copyText, copyText, hread _ htrunc]
  rw [bootpVendorFieldProcess_eq, bootpVendorFieldProcess_eq, hcode, hcode', hlen, hlen', hn,
    htext, htext, htext, hread _ le_rfl]
  -- what is left are the addresses
  have hmask : o.code = 1 → c.netOurSubnetMask = 0 → long mem (ext + 2) = long mem' (ext' + 2) := by
    intro h1 h0
    apply haddr
    simp [Vendor.address, h1, h0]
  have hgateway : o.code = 3 → c.netOurGatewayIP = 0 →
      long mem (ext + 2) = long mem' (ext' + 2) := by
    intro h1 h0
    apply haddr
    simp [Vendor.address, h1, h0]
  have hdns : o.code = 6 → c.netOurDNSIP = 0 → long mem (ext + 2) = long mem' (ext' + 2) := by
    intro h1 h0
    apply haddr
    simp [Vendor.address, h1, h0]
  congr 1
  · apply ite_congr rfl _ (fun _ => rfl)
    rintro ⟨h1, h0⟩
    exact hmask h1 h0
  · apply ite_congr rfl _ (fun _ => rfl)
    rintro ⟨h1, h0⟩
    exact hgateway h1 h0
  · apply ite_congr rfl _ (fun _ => rfl)
    rintro ⟨h1, h0⟩
    exact hdns h1 h0

/-- The size of the file after an option. -/
theorem netBootFileSize_bootpVendorFieldProcess {c : Vendor} {mem : ℕ → Byte} {ext : ℕ}
    {o : VendorOption} (h : Memory.Holds mem ext o.bytes) :
  (bootpVendorFieldProcess c mem ext).netBootFileSize = BitVec.ofNat 16 (o.fileSize.getD 0)
  := by
  obtain ⟨hcode, hlen, hvalue⟩ := h
  have hn : (mem (ext + 1)).toNat = o.value.length := by
    rw [hlen, UInt8.toNat_ofNat', Nat.mod_eq_of_lt o.length_lt]
  rw [bootpVendorFieldProcess_eq, hcode, hn, hvalue.read_eq, VendorOption.fileSize]
  dsimp only
  split
  · rfl
  · rfl

/-! ### The loop -/

/-- The options are processed one after the other. -/
def process (mem : ℕ → Byte) : List VendorOption → ℕ → Vendor → Vendor
  | [], _, c => c
  | o :: os, ext, c =>
    process mem os (ext + o.bytes.length) (bootpVendorFieldProcess c mem ext)

@[simp]
theorem encode_cons (o : VendorOption) (os : List VendorOption) :
  encode (o :: os) = o.bytes ++ encode os
  := List.flatMap_cons

theorem encode_append (os os' : List VendorOption) :
  encode (os ++ os') = encode os ++ encode os'
  := List.flatMap_append

theorem length_le_length_encode (os : List VendorOption) :
  os.length ≤ (encode os).length
  := by
  induction os with
  | nil => exact Nat.zero_le _
  | cons o os ih =>
    rw [encode_cons, List.length_append, List.length_cons, VendorOption.length_bytes]
    omega

theorem length_encode_perm {os os' : List VendorOption} (h : os'.Perm os) :
  (encode os').length = (encode os).length
  := by
  rw [encode, encode, List.length_flatMap, List.length_flatMap]
  apply (h.map _).sum_eq

theorem process_append (mem : ℕ → Byte) (os os' : List VendorOption) (ext : ℕ) (c : Vendor) :
  process mem (os ++ os') ext c
    = process mem os' (ext + (encode os).length) (process mem os ext c)
  := by
  induction os generalizing ext c with
  | nil => rfl
  | cons o os ih =>
    rw [List.cons_append, process, ih, encode_cons, List.length_append, process, Nat.add_assoc]

/-- The loop processes the options of an area. -/
theorem bootpVendorLoop_eq {mem : ℕ → Byte} {os : List VendorOption} {stop fuel ext : ℕ}
    (c : Vendor) (h : Memory.Holds mem ext (encode os ++ [255]))
    (hstop : ext + (encode os).length ≤ stop) (hfuel : os.length ≤ fuel) :
  bootpVendorLoop mem stop fuel ext c = process mem os ext c
  := by
  induction os generalizing fuel ext c with
  | nil =>
    cases fuel with
    | zero => rfl
    | succ fuel =>
      rw [bootpVendorLoop, if_neg]
      · rfl
      · rintro ⟨_, hne⟩
        exact hne h.1
  | cons o os ih =>
    cases fuel with
    | zero => cases hfuel
    | succ fuel =>
      rw [encode_cons, List.append_assoc, Memory.holds_append] at h
      rw [encode_cons, List.length_append, VendorOption.length_bytes] at hstop
      obtain ⟨⟨hcode, hlen, -⟩, hrest⟩ := h
      have hn : (mem (ext + 1)).toNat = o.value.length := by
        rw [hlen, UInt8.toNat_ofNat', Nat.mod_eq_of_lt o.length_lt]
      have hext : ext + (mem (ext + 1)).toNat + 2 = ext + o.bytes.length := by
        rw [hn, VendorOption.length_bytes, Nat.add_assoc]
      rw [bootpVendorLoop, if_pos, if_neg]
      · simp only [hext]
        rw [if_pos]
        · rw [process]
          apply ih _ hrest
          · rw [VendorOption.length_bytes]
            omega
          · exact Nat.le_of_succ_le_succ hfuel
        · rw [VendorOption.length_bytes]
          omega
      · rw [hcode]
        exact o.code_ne_pad
      · rw [hcode]
        exact ⟨by omega, o.code_ne_end⟩

theorem bootpVendorProcess_area {os : List VendorOption} {size : ℕ} (c : Vendor) (m : ℕ → Byte)
    (ext : ℕ) (hsize : (encode os).length ≤ size) :
  bootpVendorProcess c (area m ext os) ext size = process (area m ext os) os ext c
  := by
  apply bootpVendorLoop_eq
  · apply Memory.holds_store
  · omega
  · have := length_le_length_encode os
    omega

/-- Options with other codes leave an address. -/
theorem address_process {mem : ℕ → Byte} {os : List VendorOption} {ext : ℕ} (c : Vendor)
    {code : Byte} (h : Memory.Holds mem ext (encode os)) (hcode : ∀ o ∈ os, o.code ≠ code) :
  (process mem os ext c).address code = c.address code
  := by
  induction os generalizing ext c with
  | nil => rfl
  | cons o os ih =>
    rw [encode_cons, Memory.holds_append] at h
    rw [process, ih _ h.2 fun o' ho' => hcode o' (List.mem_cons_of_mem o ho'),
      address_bootpVendorFieldProcess, if_neg]
    rintro ⟨hmem, -⟩
    rw [h.1.1] at hmem
    exact hcode o List.mem_cons_self hmem

/-- An address that is not set is read by the option with its code. -/
theorem address_process_append {mem : ℕ → Byte} (os os' : List VendorOption) {o : VendorOption}
    {ext : ℕ} {c : Vendor} (h : Memory.Holds mem ext (encode (os ++ o :: os')))
    (hcodes : ((os ++ o :: os').map VendorOption.code).Nodup) (hc : c.address o.code = some 0) :
  (process mem (os ++ o :: os') ext c).address o.code
    = some (long mem (ext + (encode os).length + 2))
  := by
  rw [encode_append, Memory.holds_append, encode_cons, Memory.holds_append] at h
  rw [List.map_append, List.map_cons, List.nodup_append, List.nodup_cons] at hcodes
  obtain ⟨hos, ho, hos'⟩ := h
  obtain ⟨-, ⟨hrest, -⟩, hne⟩ := hcodes
  have hbefore : ∀ o₁ ∈ os, o₁.code ≠ o.code := by
    intro o₁ ho₁
    apply hne _ (List.mem_map_of_mem ho₁) _ List.mem_cons_self
  have hafter : ∀ o₁ ∈ os', o₁.code ≠ o.code := by
    intro o₁ ho₁ heq
    apply hrest
    rw [← heq]
    apply List.mem_map_of_mem ho₁
  rw [process_append, process, address_process _ hos' hafter, address_bootpVendorFieldProcess,
    address_process _ hos hbefore, if_pos ⟨ho.1, hc⟩]

/-- The last option sets the size of the file. -/
theorem netBootFileSize_process {mem : ℕ → Byte} {ext : ℕ} (os : List VendorOption)
    (o : VendorOption) (c : Vendor) (h : Memory.Holds mem ext (encode (os ++ [o]))) :
  (process mem (os ++ [o]) ext c).netBootFileSize = BitVec.ofNat 16 (o.fileSize.getD 0)
  := by
  rw [encode_append, Memory.holds_append, encode_cons, Memory.holds_append] at h
  rw [process_append, process, process]
  apply netBootFileSize_bootpVendorFieldProcess h.2.1

/-! ### The order of the options -/

/-- What an option does when the value of an option is in the packet. -/
def VendorOption.apply (c : Vendor) (o : VendorOption) : Vendor :=
  bootpVendorFieldProcess c (Memory.store (fun _ => 0) 0 o.bytes) 0

/-- An address whose bytes are all in the value of the option. -/
theorem long_eq {mem mem' : ℕ → Byte} {ext ext' : ℕ} {o : VendorOption}
    (h : Memory.Holds mem ext o.bytes) (h' : Memory.Holds mem' ext' o.bytes)
    (hlen : 4 ≤ o.value.length) :
  long mem (ext + 2) = long mem' (ext' + 2)
  := by
  obtain ⟨-, -, hvalue⟩ := h
  obtain ⟨-, -, hvalue'⟩ := h'
  rw [long, long, hvalue.read_take hlen, hvalue'.read_take hlen]

/-- A later option is not short if it was not. -/
theorem Short.before {c : Vendor} {mem : ℕ → Byte} {ext : ℕ} {o : VendorOption}
    (h : Short (bootpVendorFieldProcess c mem ext) o) :
  Short c o
  := by
  obtain ⟨hc, hlen⟩ := h
  rw [address_bootpVendorFieldProcess] at hc
  split at hc
  case isTrue hset => exact ⟨hset.2, hlen⟩
  case isFalse => exact ⟨hc, hlen⟩

/-- Without short options it does not matter where in the packet the options are. -/
theorem process_eq_foldl {mem : ℕ → Byte} {os : List VendorOption} {ext : ℕ} {c : Vendor}
    (h : Memory.Holds mem ext (encode os)) (hshort : ∀ o ∈ os, ¬ Short c o) :
  process mem os ext c = os.foldl VendorOption.apply c
  := by
  induction os generalizing ext c with
  | nil => rfl
  | cons o os ih =>
    rw [encode_cons, Memory.holds_append] at h
    have hstore := Memory.holds_store (fun _ => (0 : Byte)) 0 o.bytes
    have happly : bootpVendorFieldProcess c mem ext = o.apply c := by
      apply bootpVendorFieldProcess_congr h.1 hstore
      intro haddr
      apply long_eq h.1 hstore
      by_contra hlen
      exact hshort o List.mem_cons_self ⟨haddr, not_le.mp hlen⟩
    rw [process, List.foldl_cons, ← happly]
    apply ih h.2
    intro o' ho' hs
    exact hshort o' (List.mem_cons_of_mem o ho') hs.before

/-- A variable that is set only once: with at most one of `p` and `q` the order does not
matter. -/
theorem set_comm {α : Type*} {p q : Prop} [Decidable p] [Decidable q] (h : ¬ (p ∧ q))
    (z : α → Prop) [DecidablePred z] (a b x : α) :
  (if q ∧ z (if p ∧ z x then a else x) then b else if p ∧ z x then a else x)
    = if p ∧ z (if q ∧ z x then b else x) then a else if q ∧ z x then b else x
  := by
  by_cases hp : p
  · have hq : ¬ q := fun hq => h ⟨hp, hq⟩
    simp only [hp, hq, true_and, false_and, if_false]
  · simp only [hp, false_and, if_false]

theorem modify_comm {α : Type*} {p q : Prop} [Decidable p] [Decidable q] (h : ¬ (p ∧ q))
    (f g : α → α) (x : α) :
  (if q then g (if p then f x else x) else if p then f x else x)
    = if p then f (if q then g x else x) else if q then g x else x
  := by
  by_cases hp : p
  · have hq : ¬ q := fun hq => h ⟨hp, hq⟩
    simp only [hp, hq, if_true, if_false]
  · simp only [hp, if_false]

theorem VendorOption.netBootFileSize_apply {o : VendorOption}
    (ho : ∀ n, o.fileSize = some n → n = 0) (c : Vendor) :
  (o.apply c).netBootFileSize = 0
  := by
  rw [apply, netBootFileSize_bootpVendorFieldProcess (Memory.holds_store _ 0 o.bytes)]
  cases h : o.fileSize with
  | none => rfl
  | some n =>
    rw [Option.getD_some, ho n h]
    rfl

/-- Two options with different codes. -/
theorem VendorOption.apply_comm {o o' : VendorOption} (hcode : o.code ≠ o'.code)
    (ho : ∀ n, o.fileSize = some n → n = 0) (ho' : ∀ n, o'.fileSize = some n → n = 0)
    (c : Vendor) :
  o'.apply (o.apply c) = o.apply (o'.apply c)
  := by
  have hstore := Memory.holds_store (fun _ => (0 : Byte)) 0 o.bytes
  have hstore' := Memory.holds_store (fun _ => (0 : Byte)) 0 o'.bytes
  have hne : ∀ b : Byte, ¬ (o.code = b ∧ o'.code = b) := by
    rintro b ⟨h, h'⟩
    exact hcode (h.trans h'.symm)
  have hfields : ∀ c₁ c₂ : Vendor, SameValues c₁ c₂ → c₁.netOurNISDomain = c₂.netOurNISDomain →
      c₁ = c₂ := by
    rintro ⟨⟩ ⟨⟩ ⟨rfl, rfl, rfl, rfl, rfl, rfl⟩ rfl
    rfl
  apply hfields
  · constructor
    · simp only [apply, bootpVendorFieldProcess_eq, hstore.1, hstore'.1]
      apply set_comm (hne 1) (fun w => w = 0)
    · simp only [apply, bootpVendorFieldProcess_eq, hstore.1, hstore'.1]
      apply set_comm (hne 3) (fun w => w = 0)
    · simp only [apply, bootpVendorFieldProcess_eq, hstore.1, hstore'.1]
      apply set_comm (hne 6) (fun w => w = 0)
    · simp only [apply, bootpVendorFieldProcess_eq, hstore.1, hstore'.1]
      apply modify_comm (hne 12) (copyText · 32 _ _ _) (copyText · 32 _ _ _)
    · simp only [apply, bootpVendorFieldProcess_eq, hstore.1, hstore'.1]
      apply modify_comm (hne 17) (copyText · 64 _ _ _) (copyText · 64 _ _ _)
    · rw [netBootFileSize_apply ho', netBootFileSize_apply ho]
  · simp only [apply, bootpVendorFieldProcess_eq, hstore.1, hstore'.1]
    apply modify_comm (hne 40) (copyText · 32 _ _ _) (copyText · 32 _ _ _)

/-- The options of a list have different codes, hence a list in another order does the same. -/
theorem foldl_apply_perm {os os' : List VendorOption} (h : os'.Perm os)
    (hcodes : (os.map VendorOption.code).Nodup)
    (hsize : ∀ o ∈ os, ∀ n, o.fileSize = some n → n = 0) (c : Vendor) :
  os'.foldl VendorOption.apply c = os.foldl VendorOption.apply c
  := by
  apply h.foldl_eq'
  intro o ho o' ho' c
  rw [h.mem_iff] at ho ho'
  by_cases heq : o = o'
  · rw [heq]
  · apply VendorOption.apply_comm _ (hsize o ho) (hsize o' ho')
    intro hc
    apply heq (List.inj_on_of_nodup_map hcodes ho ho' hc)

/-- The order of the options does not matter, and the size of the file is the value of its
option. -/
def OrderFree (c : Vendor) (m : ℕ → Byte) (ext size : ℕ) (os : List VendorOption) : Prop :=
  (∀ os', os'.Perm os →
    SameValues (bootpVendorProcess c (area m ext os') ext size)
      (bootpVendorProcess c (area m ext os) ext size))
  ∧ ∀ o ∈ os, ∀ n, o.fileSize = some n →
    (bootpVendorProcess c (area m ext os) ext size).netBootFileSize.toNat = n

theorem OrderFree.of_no_short {c : Vendor} {m : ℕ → Byte} {ext size : ℕ} {os : List VendorOption}
    (hcodes : (os.map VendorOption.code).Nodup) (hfits : (encode os).length ≤ size)
    (hshort : ∀ o ∈ os, ¬ Short c o) (hsize : ∀ o ∈ os, ∀ n, o.fileSize = some n → n = 0) :
  OrderFree c m ext size os
  := by
  have hfold : ∀ os' : List VendorOption, os'.Perm os →
      bootpVendorProcess c (area m ext os') ext size = os'.foldl VendorOption.apply c := by
    intro os' h
    rw [bootpVendorProcess_area c m ext (by rwa [length_encode_perm h]), process_eq_foldl]
    · exact (Memory.holds_append.mp (Memory.holds_store _ _ _)).1
    · intro o ho
      apply hshort o (h.mem_iff.mp ho)
  constructor
  · intro os' h
    rw [hfold os' h, hfold os (List.Perm.refl os), foldl_apply_perm h hcodes hsize]
    constructor <;> rfl
  · intro o ho n hn
    rw [hfold os (List.Perm.refl os), hsize o ho n hn]
    obtain rfl | ⟨os, o', rfl⟩ := List.eq_nil_or_concat os
    · cases ho
    · rw [List.concat_eq_append, List.foldl_append, List.foldl_cons, List.foldl_nil,
        VendorOption.netBootFileSize_apply]
      · rfl
      · apply hsize o'
        simp

theorem OrderFree.of_length_lt {c : Vendor} {m : ℕ → Byte} {ext size : ℕ} {os : List VendorOption}
    (hfits : (encode os).length ≤ size) (hlen : os.length < 2)
    (hsize : ∀ o ∈ os, ∀ n, o.fileSize = some n → n < 2 ^ 16) :
  OrderFree c m ext size os
  := by
  have hcases : os = [] ∨ ∃ o, os = [o] := by
    match os, hlen with
    | [], _ => exact Or.inl rfl
    | [o], _ => exact Or.inr ⟨o, rfl⟩
  constructor
  · intro os' h
    have heq : os' = os := by
      obtain rfl | ⟨o, rfl⟩ := hcases
      · exact h.eq_nil
      · exact List.perm_singleton.mp h
    rw [heq]
    constructor <;> rfl
  · intro o ho n hn
    obtain rfl | ⟨o', rfl⟩ := hcases
    · cases ho
    · obtain rfl := List.mem_singleton.mp ho
      have hlast := netBootFileSize_process [] o c
        (Memory.holds_append.mp (Memory.holds_store m ext (encode [o] ++ [255]))).1
      rw [List.nil_append] at hlast
      rw [bootpVendorProcess_area c m ext hfits, area, hlast, hn, Option.getD_some,
        BitVec.toNat_ofNat, Nat.mod_eq_of_lt]
      apply hsize o ho n hn

theorem VendorOption.code_of_fileSize {o : VendorOption} {n : ℕ} (h : o.fileSize = some n) :
  o.code = 13
  := by
  rw [fileSize] at h
  split at h
  case isTrue h13 => exact h13.1
  case isFalse => cases h

/-- Any option of a list with two options at least can be the first one, or the last one, and
then there is another option after it, or before it. -/
theorem exists_perm_of_mem {os : List VendorOption} {o : VendorOption} (ho : o ∈ os)
    (hlen : 2 ≤ os.length) :
  ∃ rest, rest ≠ [] ∧ (o :: rest).Perm os ∧ (rest ++ [o]).Perm os
  := by
  obtain ⟨os₁, os₂, rfl⟩ := List.append_of_mem ho
  use os₁ ++ os₂
  constructor
  · rintro h
    rw [List.append_eq_nil_iff] at h
    rw [h.1, h.2] at hlen
    simp at hlen
  · have hmiddle : (o :: (os₁ ++ os₂)).Perm (os₁ ++ o :: os₂) := List.perm_middle.symm
    exact ⟨hmiddle, (List.perm_append_singleton o _).trans hmiddle⟩

/-- The size of the file is lost if its option is the first one of several. -/
theorem OrderFree.fileSize_eq_zero {c : Vendor} {m : ℕ → Byte} {ext size : ℕ}
    {os : List VendorOption} (h : OrderFree c m ext size os)
    (hcodes : (os.map VendorOption.code).Nodup) (hfits : (encode os).length ≤ size)
    (hlen : 2 ≤ os.length) {o : VendorOption} (ho : o ∈ os) {n : ℕ} (hn : o.fileSize = some n) :
  n = 0
  := by
  obtain ⟨rest, hrest, hperm, -⟩ := exists_perm_of_mem ho hlen
  have hsame := (h.1 _ hperm).netBootFileSize
  rw [← h.2 o ho n hn, ← hsame,
    bootpVendorProcess_area c m ext (by rwa [length_encode_perm hperm])]
  obtain rfl | ⟨rest, last, rfl⟩ := List.eq_nil_or_concat rest
  · exact absurd rfl hrest
  · rw [List.concat_eq_append] at hperm ⊢
    have hlast : last.fileSize = none := by
      cases hl : last.fileSize with
      | none => rfl
      | some k =>
        have hnodup := (hperm.map VendorOption.code).nodup_iff.mpr hcodes
        rw [List.map_cons, List.nodup_cons] at hnodup
        refine absurd ?_ hnodup.1
        rw [VendorOption.code_of_fileSize hn, ← VendorOption.code_of_fileSize hl]
        apply List.mem_map_of_mem
        simp
    have hsize := netBootFileSize_process (o :: rest) last c
      (Memory.holds_append.mp (Memory.holds_store m ext (encode (o :: rest ++ [last]) ++ [255]))).1
    rw [hlast] at hsize
    rw [← List.cons_append, area, hsize]
    rfl

/-- A cell of a word that is read. -/
theorem cell_eq_of_long_eq {mem mem' : ℕ → Byte} {p p' k : ℕ} (h : long mem p = long mem' p')
    (hk : k < 4) :
  mem (p + k) = mem' (p' + k)
  := by
  have hread : Memory.read mem p 4 = Memory.read mem' p' 4 := by
    rw [← wordBytes_bytesWord (Memory.length_read mem p 4),
      ← wordBytes_bytesWord (Memory.length_read mem' p' 4)]
    exact congrArg wordBytes h
  have hk' : k < (Memory.read mem p 4).length := by rwa [Memory.length_read]
  have hk'' : k < (Memory.read mem' p' 4).length := by rwa [Memory.length_read]
  rw [← Memory.getElem_read mem p 4 k hk', ← Memory.getElem_read mem' p' 4 k hk'']
  simp only [hread]

/-- What follows the value of a short option is read with it: the code of the next option if the
option is the first one, and the end if it is the last one. -/
theorem OrderFree.not_short {c : Vendor} {m : ℕ → Byte} {ext size : ℕ} {os : List VendorOption}
    (h : OrderFree c m ext size os) (hcodes : (os.map VendorOption.code).Nodup)
    (hfits : (encode os).length ≤ size) (hlen : 2 ≤ os.length) {o : VendorOption} (ho : o ∈ os) :
  ¬ Short c o
  := by
  rintro ⟨hc, hshort⟩
  obtain ⟨rest, hrest, hperm, hperm'⟩ := exists_perm_of_mem ho hlen
  have hfirst : Memory.Holds (area m ext (o :: rest)) ext (encode (o :: rest) ++ [255]) :=
    Memory.holds_store _ _ _
  have hlast : Memory.Holds (area m ext (rest ++ [o])) ext (encode (rest ++ [o]) ++ [255]) :=
    Memory.holds_store _ _ _
  -- the same address is read in both orders
  have haddr := address_process_append [] rest (Memory.holds_append.mp hfirst).1
    ((hperm.map VendorOption.code).nodup_iff.mpr hcodes) hc
  have haddr' := address_process_append rest [] (Memory.holds_append.mp hlast).1
    ((hperm'.map VendorOption.code).nodup_iff.mpr hcodes) hc
  have hsame := ((h.1 _ hperm).address o.code).trans ((h.1 _ hperm').address o.code).symm
  rw [List.nil_append] at haddr
  rw [bootpVendorProcess_area c m ext (by rwa [length_encode_perm hperm]),
    bootpVendorProcess_area c m ext (by rwa [length_encode_perm hperm']), haddr, haddr',
    Option.some_inj] at hsame
  have hcell := cell_eq_of_long_eq hsame hshort
  -- the cell after the value
  match rest, hrest with
  | next :: rest, _ =>
    rw [encode_cons, List.append_assoc, Memory.holds_append, encode_cons] at hfirst
    rw [encode_append, List.append_assoc, Memory.holds_append, encode_cons o, List.append_assoc,
      Memory.holds_append] at hlast
    have hnext := hfirst.2.1
    have hend := hlast.2.2.1
    rw [VendorOption.length_bytes] at hnext hend
    apply next.code_ne_end
    have hafter : ∀ n, ext + n + 2 + o.value.length = ext + n + (o.value.length + 2) := by
      intro n
      omega
    rw [hafter, hafter] at hcell
    exact hnext.symm.trans (hcell.trans hend)

/-- The property holds if and only if the size of the file fits `NetBootFileSize` and the area
with more than one option has no other size than 0, and no value that is too short for an address
that is read from it. -/
theorem orderFree_iff (c : Vendor) (m : ℕ → Byte) (ext : ℕ) {size : ℕ} {os : List VendorOption}
    (hcodes : (os.map VendorOption.code).Nodup) (hfits : (encode os).length ≤ size) :
  OrderFree c m ext size os ↔
    (∀ o ∈ os, ∀ n, o.fileSize = some n → n < 2 ^ 16)
    ∧ (2 ≤ os.length →
      (∀ o ∈ os, ¬ Short c o) ∧ ∀ o ∈ os, ∀ n, o.fileSize = some n → n = 0)
  := by
  constructor
  · intro h
    refine ⟨?_, fun hlen => ⟨fun o ho => h.not_short hcodes hfits hlen ho, ?_⟩⟩
    · intro o ho n hn
      rw [← h.2 o ho n hn]
      apply BitVec.isLt
    · intro o ho n hn
      apply h.fileSize_eq_zero hcodes hfits hlen ho hn
  · rintro ⟨hbound, hseveral⟩
    by_cases hlen : 2 ≤ os.length
    · obtain ⟨hshort, hsize⟩ := hseveral hlen
      apply OrderFree.of_no_short hcodes hfits hshort hsize
    · apply OrderFree.of_length_lt hfits (not_le.mp hlen) hbound

/-- Before the first packet. -/
def unset : Vendor where
  netOurSubnetMask := 0
  netOurGatewayIP := 0
  netOurDNSIP := 0
  netOurHostName := fun _ => 0
  netOurRootPath := fun _ => 0
  netOurNISDomain := fun _ => 0
  netBootFileSize := 0

/-- The mask 255.255.255.0. -/
def maskOption : VendorOption := ⟨1, [255, 255, 255, 0], by decide, by decide, by decide⟩

/-- The gateway 192.168.1.1. -/
def gatewayOption : VendorOption := ⟨3, [192, 168, 1, 1], by decide, by decide, by decide⟩

/-- A file of 16 blocks. -/
def sizeOption : VendorOption := ⟨13, [0, 16], by decide, by decide, by decide⟩

theorem orderFree_mask_gateway :
  OrderFree unset (fun _ => 0) 240 312 [maskOption, gatewayOption]
  := by
  apply (orderFree_iff unset (fun _ => 0) 240 (by decide) (by decide)).mpr
  constructor
  · simp [VendorOption.fileSize, maskOption, gatewayOption]
  · intro _
    simp [VendorOption.fileSize, Short, maskOption, gatewayOption]

/-- The mask after the size of the file makes the size 0. -/
theorem not_orderFree_size :
  ¬ OrderFree unset (fun _ => 0) 240 312 [sizeOption, maskOption]
  := by
  intro h
  have hsize := h.2 sizeOption List.mem_cons_self 16 (by decide)
  revert hsize
  decide +kernel

end Bootp
