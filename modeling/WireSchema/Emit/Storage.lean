import WireSchema.Number

/-!
# Storage classes

The C type that holds a value of a given width.
-/

namespace WireSchema

/-- A C type for bits: an unsigned integer, or an array of bytes beyond 64 bits. -/
inductive Storage where
  | u8
  | u16
  | u32
  | u64
  | bytes (count : Nat)
  deriving DecidableEq, Repr

namespace Storage

/-- The smallest type that holds `width` bits.  Widths are rounded up to whole bytes in
    word arithmetic; where that overflows there is none. -/
def ofWidth? (width : Nat) : Option Storage :=
  if width ≤ 8 then some .u8
  else if width ≤ 16 then some .u16
  else if width ≤ 32 then some .u32
  else if width ≤ 64 then some .u64
  else if width + 7 < wordLimit then some (.bytes ((width + 7) / 8))
  else none

/-- The C type, which for an array is the type of its elements. -/
def typeName : Storage → String
  | .u8 => "uint8_t"
  | .u16 => "uint16_t"
  | .u32 => "uint32_t"
  | .u64 => "uint64_t"
  | .bytes _ => "uint8_t"

def suffix : Storage → String
  | .bytes count => "[" ++ toString count ++ "]"
  | _ => ""

def declare (storage : Storage) (name : String) : String :=
  storage.typeName ++ " " ++ name ++ storage.suffix

end Storage

end WireSchema
