import UBoot.Crc32

/-!
# Redundant copies

An environment that is kept twice: each copy has a checksum, a byte of flags that tells
which of the two is the current one, and the data.  The flags are not part of what the
checksum is computed of.
-/

namespace Env

/-- One copy, `env_t` with `CONFIG_SYS_REDUNDAND_ENVIRONMENT`. -/
structure Copy where
  crc : Word
  flags : Byte
  data : List Byte
  deriving DecidableEq

/-- The checksum of the copy is right. -/
def Copy.CrcOk (e : Copy) : Prop := Crc32.crc32 0 e.data = e.crc

instance (e : Copy) : Decidable e.CrcOk :=
  inferInstanceAs (Decidable (_ = _))

/-- The copy with other data and their checksum. -/
def Copy.edit (e : Copy) (data : List Byte) : Copy :=
  { e with crc := Crc32.crc32 0 data, data := data }

theorem Copy.crcOk_edit (e : Copy) (data : List Byte) :
  (e.edit data).CrcOk
  := rfl

/-- The flags do not matter for the checksum. -/
theorem Copy.crcOk_flags {e : Copy} (flags : Byte) :
  { e with flags := flags }.CrcOk ↔ e.CrcOk
  := Iff.rfl

/-- The copy as it stands in memory. -/
def Copy.bytes (e : Copy) : List Byte := wordBytes e.crc ++ e.flags :: e.data

/-- The copy with the given bytes. -/
def Copy.ofBytes (b : List Byte) : Copy where
  crc := bytesWord (b.take 4)
  flags := b.getD 4 0
  data := b.drop 5

theorem Copy.length_bytes (e : Copy) :
  e.bytes.length = e.data.length + 5
  := by
  simp only [bytes, wordBytes, List.length_append, List.length_cons, List.length_nil]
  omega

theorem Copy.ofBytes_bytes (e : Copy) :
  ofBytes e.bytes = e
  := by
  have htake : e.bytes.take 4 = wordBytes e.crc := rfl
  simp only [ofBytes, htake, bytesWord_wordBytes]
  rfl

/-- The places of the two copies. -/
inductive Slot where
  | first
  | second
  deriving DecidableEq

/-- The other place. -/
def Slot.other : Slot → Slot
  | first => second
  | second => first

@[simp]
theorem Slot.other_other (s : Slot) :
  s.other.other = s
  := by
  cases s <;> rfl

@[simp]
theorem Slot.other_ne (s : Slot) :
  s.other ≠ s
  := by
  cases s <;> decide

@[simp]
theorem Slot.ne_other (s : Slot) :
  s ≠ s.other
  := s.other_ne.symm

theorem Slot.eq_other_of_ne {s t : Slot} (h : s ≠ t) :
  s = t.other
  := by
  cases s <;> cases t <;> first | rfl | contradiction

end Env
