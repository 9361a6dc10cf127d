import LuaBinaryTable.Document.Read

/-!
# What a document declares

Some payloads of a document speak about other parts of it: the count of a pool, an array or a table
announces strings or values behind it, and a string index names a string of the pool.  `declared`
lists them in the order in which they stand in the input.  The list ends where the reading does: at
the first place where no value stands, or where Lua refuses what the document asks for.
-/

namespace LuaBinaryTable

/-- A payload that speaks about other parts of the input. -/
inductive Declared where
  /-- The number of strings, elements or entries that follow, and the position behind it. -/
  | count (n p : Nat)
  /-- The number of a string of the pool. -/
  | index (i : Nat)
  deriving DecidableEq

section

variable (sizes : TableSizes) (rd : BinaryReader → Doc × BinaryReader)
  (dec : BinaryReader → List Declared)

/-- What the next `n` elements declare. -/
def declaredItems : Nat → BinaryReader → List Declared
  | 0, _ => []
  | n + 1, r =>
    let (d, r') := rd r
    dec r ++ if d.outcome sizes = .complete then declaredItems n r' else []

/-- What the next `n` entries declare.  An entry whose key no table can have is the last. -/
def declaredEntries : Nat → BinaryReader → List Declared
  | 0, _ => []
  | n + 1, r =>
    let (k, r₁) := rd r
    let (v, r₂) := rd r₁
    dec r ++ if k.outcome sizes = .complete then
      dec r₁ ++ if v.outcome sizes = .complete then
        if k.isKey then declaredEntries n r₂ else []
      else []
    else []

/-- What a payload declares, and the values behind it. -/
def BinaryType.declared (payload : Bytes) (r : BinaryReader) : BinaryType → List Declared
  | tString8 | tString16 | tString32 => [.index (leNat payload)]
  | tArray8 | tArray16 | tArray32 =>
    .count (leNat payload) r.p ::
      if sizes (toInt32 (leNat payload)) 0 then declaredItems sizes rd dec (leNat payload) r else []
  | tTable8 | tTable16 | tTable32 =>
    .count (leNat payload) r.p ::
      if sizes 0 (toInt32 (leNat payload)) then declaredEntries sizes rd dec (leNat payload) r
      else []
  | _ => []

end

/-- What the value at the cursor declares. -/
def declaredDoc (sizes : TableSizes) (pool : Nat → Doc) : Nat → BinaryReader → List Declared
  | 0, _ => []
  | fuel + 1, r =>
    let (type, r) := r.readType
    match BinaryType.ofNat? type with
    | none => []
    | some type =>
      let (payload, r) := r.readNumber type.width
      type.declared sizes (readDoc pool fuel) (declaredDoc sizes pool fuel) payload r

/-- What the input declares. -/
def declared (sizes : TableSizes) (data : Bytes) : List Declared :=
  let (magic, r) := BinaryReader.readNumber 2 { data := data, p := 0 }
  if leNat magic ≠ magicNumber then []
  else
    let (version, r) := r.readNumber 2
    if leNat version ≠ luabtVersion then []
    else
      let (size, r) := r.readNumber stringPoolLengthSize
      .count (leNat size) r.p ::
        if sizes (toInt32 (leNat size)) 0 then
          match readPool (leNat size) r with
          | (_, false, _) => []
          | (strs, true, r) =>
            let pool := poolDoc (fillPool 0 LuaTable.empty strs) strs.length
            declaredDoc sizes pool (data.length + 1) r
        else []

end LuaBinaryTable
