import LuaBinaryTable.Reader.ParserValue

/-!
# `parserValue` on machines of any pointer width

`lua_Integer` is `ptrdiff_t`, so `_parseInteger` converts the integer it has read to the width of a
pointer before it becomes a number.  `parserValueAt bits` is the decoder where a pointer has `bits`
bits; on a machine of 64 bits it is `parserValue` (`parserValueAt_eq`).
-/

namespace LuaBinaryTable

namespace Reader

/-- The conversion of an integer to `lua_Integer`. -/
def luaInteger (bits : Nat) (z : Int) : Int := z.bmod (2 ^ bits)

/-- `_parseInteger` of a `w`-byte signed integer. -/
def parseIntegerAt (bits w : Nat) : ValueParser := fun s =>
  let (b, s) := s.readNumber w
  return (true, { s with L := s.L.pushinteger (luaInteger bits (leInt b)) })

/-- The table `parsers`; only the integers depend on the width of a pointer. -/
def parsersAt (bits : Nat) (sizes : TableSizes) (strTable : StringTable)
    (parserValue : ValueParser) : BinaryType → ValueParser
  | .tInt8 => parseIntegerAt bits 1
  | .tInt16 => parseIntegerAt bits 2
  | .tInt32 => parseIntegerAt bits 4
  | .tInt64 => parseIntegerAt bits 8
  | type => parsers sizes strTable parserValue type

/-- `parserValue` where `lua_Integer` has the given width. -/
def parserValueAt (bits : Nat) (sizes : TableSizes) (strTable : StringTable) : Nat → ValueParser
  | 0, _ => .diverges
  | fuel + 1, s =>
    let s := s.log (.value s.reader.p)
    let (type, reader) := s.reader.readType
    let s := { s with reader := reader }
    match BinaryType.ofNat? type with
    | none => return (false, s)
    | some type => parsersAt bits sizes strTable (parserValueAt bits sizes strTable fuel) type s

theorem luaInteger_of_le {bits : Nat} {z : Int} (hlo : -2 ^ bits ≤ 2 * z) (hhi : 2 * z < 2 ^ bits) :
    luaInteger bits z = z := by
  have hp : ((2 ^ bits : Nat) : Int) = 2 ^ bits := by push_cast; rfl
  apply Int.bmod_eq_of_le <;> rw [hp] <;> omega

/-- An integer of at most eight bytes fits 64 bits. -/
theorem luaInteger_leInt {b : Bytes} (h : b.length ≤ 8) : luaInteger 64 (leInt b) = leInt b := by
  have hle : 256 ^ b.length ≤ 256 ^ 8 := Nat.pow_le_pow_right (by decide) h
  have hpos : 0 < 256 ^ b.length := Nat.pow_pos (by decide)
  have hlo := @Int.le_bmod (leNat b) (256 ^ b.length) hpos
  have hhi := @Int.bmod_lt (leNat b) (256 ^ b.length) hpos
  apply luaInteger_of_le <;> unfold leInt <;> omega

theorem parseIntegerAt_eq {w : Nat} (h : w ≤ 8) : parseIntegerAt 64 w = parseInteger w := by
  funext s
  have hlen : (s.readNumber w).1.length ≤ 8 := by
    rw [show (s.readNumber w).1 = (s.reader.readNumber w).1 from rfl,
      BinaryReader.length_readNumber]
    exact h
  simp only [parseIntegerAt, parseInteger, luaInteger_leInt hlen]

/-- With 64 bits the integers are read as in `parserValue`. -/
theorem parserValueAt_eq (sizes : TableSizes) (st : StringTable) :
    ∀ fuel, parserValueAt 64 sizes st fuel = parserValue sizes st fuel
  | 0 => rfl
  | fuel + 1 => by
    funext s
    rw [parserValueAt, parserValue, parserValueAt_eq sizes st fuel]
    have hparsers : ∀ type, parsersAt 64 sizes st (parserValue sizes st fuel) type =
        parsers sizes st (parserValue sizes st fuel) type := by
      intro type
      cases type with
      | tInt8 => exact parseIntegerAt_eq (by decide)
      | tInt16 => exact parseIntegerAt_eq (by decide)
      | tInt32 => exact parseIntegerAt_eq (by decide)
      | tInt64 => exact parseIntegerAt_eq (by decide)
      | _ => rfl
    exact funext hparsers ▸ rfl

end Reader

end LuaBinaryTable
