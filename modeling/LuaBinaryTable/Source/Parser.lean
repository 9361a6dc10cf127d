import LuaBinaryTable.Document.Materialise
import LuaBinaryTable.Source.Lexer

/-!
# Expressions of Lua source

The chunks `return exp`, where an expression is `true`, `false`, a number, a string in quotes, or a
table constructor with fields `[exp] = exp,`.  `parseChunk` reads one off a list of tokens, and
`Exp.eval` evaluates it: a constructor makes a new table and stores the fields in their order.
-/

namespace LuaBinaryTable

mutual

/-- The expressions of a printed value. -/
inductive Exp where
  | boolean (b : Bool)
  | number (i : Int)
  | string (s : Bytes)
  | table (fields : Fields)
  deriving DecidableEq

/-- The fields of a table constructor. -/
inductive Fields where
  | nil
  | cons (key value : Exp) (rest : Fields)
  deriving DecidableEq

end

/-! ### Reading -/

mutual

/-- Read an expression; each token that is read takes one unit of fuel at most. -/
def parseExp : Nat → List Token → Option (Exp × List Token)
  | 0, _ => none
  | fuel + 1, ts =>
    match ts with
    | .boolean b :: ts => some (.boolean b, ts)
    | .number i :: ts => some (.number i, ts)
    | .string s :: ts => some (.string s, ts)
    | .openBrace :: ts => (parseFields fuel ts).map fun r => (.table r.1, r.2)
    | _ => none

/-- Read the fields of a table, up to the closing brace. -/
def parseFields : Nat → List Token → Option (Fields × List Token)
  | 0, _ => none
  | fuel + 1, ts =>
    match ts with
    | .closeBrace :: ts => some (.nil, ts)
    | .openBracket :: ts =>
      match parseExp fuel ts with
      | some (key, .closeBracket :: .assign :: ts) =>
        match parseExp fuel ts with
        | some (value, .comma :: ts) =>
          (parseFields fuel ts).map fun r => (.cons key value r.1, r.2)
        | _ => none
      | _ => none
    | _ => none

end

/-- Read a whole chunk. -/
def parseChunk (ts : List Token) : Option Exp :=
  match ts with
  | .chunk :: ts =>
    match parseExp ts.length ts with
    | some (e, []) => some e
    | _ => none
  | _ => none

/-! ### Evaluation -/

mutual

/-- The value, and the heap with the tables it needs. -/
def Exp.eval : Exp → List LuaTable → LuaValue × List LuaTable
  | .boolean b, h => (.boolean b, h)
  | .number i, h => (integer i, h)
  | .string s, h => (.string s, h)
  | .table fields, h => (.table h.length, fields.store h.length (h ++ [LuaTable.empty]))

/-- Store the fields in the table at `ref`. -/
def Fields.store : Fields → Nat → List LuaTable → List LuaTable
  | .nil, _, h => h
  | .cons key value rest, ref, h =>
    let (k, h) := key.eval h
    let (v, h) := value.eval h
    rest.store ref (h.modify ref (·.set k v))

end

/-! ### Tokens -/

mutual

/-- The tokens of an expression. -/
def Exp.tokens : Exp → List Token
  | .boolean b => [.boolean b]
  | .number i => [.number i]
  | .string s => [.string s]
  | .table fields => .openBrace :: fields.tokens ++ [.closeBrace]

def Fields.tokens : Fields → List Token
  | .nil => []
  | .cons key value rest =>
    .openBracket :: key.tokens ++ .closeBracket :: .assign :: value.tokens ++ .comma :: rest.tokens

end

mutual

/-- An expression is read off its tokens. -/
theorem parseExp_tokens : ∀ (e : Exp) (fuel : Nat) (rest : List Token), e.tokens.length ≤ fuel →
    parseExp fuel (e.tokens ++ rest) = some (e, rest)
  | e, 0, rest, hf => by
    cases e <;> simp [Exp.tokens] at hf
  | .boolean b, fuel + 1, rest, _ => rfl
  | .number i, fuel + 1, rest, _ => rfl
  | .string s, fuel + 1, rest, _ => rfl
  | .table fields, fuel + 1, rest, hf => by
    have hlen : fields.tokens.length + 1 ≤ fuel := by
      simp only [Exp.tokens, List.length_append, List.length_cons, List.length_nil] at hf
      omega
    have hfields := parseFields_tokens fields fuel rest hlen
    rw [Exp.tokens, List.cons_append, List.cons_append, List.append_assoc, List.singleton_append,
      parseExp, hfields, Option.map_some]

/-- The fields are parsed up to the brace. -/
theorem parseFields_tokens : ∀ (fs : Fields) (fuel : Nat) (rest : List Token),
    fs.tokens.length + 1 ≤ fuel →
      parseFields fuel (fs.tokens ++ .closeBrace :: rest) = some (fs, rest)
  | .nil, fuel + 1, rest, _ => rfl
  | .cons key value fs, fuel + 1, rest, hf => by
    simp only [Fields.tokens, List.length_append, List.length_cons] at hf
    have hkey := parseExp_tokens key fuel (.closeBracket :: .assign :: (value.tokens ++
      .comma :: (fs.tokens ++ .closeBrace :: rest))) (by omega)
    have hvalue := parseExp_tokens value fuel (.comma :: (fs.tokens ++ .closeBrace :: rest))
      (by omega)
    have hrest := parseFields_tokens fs fuel rest (by omega)
    have htokens : (Fields.cons key value fs).tokens ++ .closeBrace :: rest =
        .openBracket :: (key.tokens ++ .closeBracket :: .assign :: (value.tokens ++
          .comma :: (fs.tokens ++ .closeBrace :: rest))) := by
      simp [Fields.tokens]
    rw [htokens, parseFields]
    simp only [hkey, hvalue, hrest, Option.map_some]

end

/-- A chunk is read off its tokens. -/
theorem parseChunk_tokens (e : Exp) : parseChunk (.chunk :: e.tokens) = some e := by
  have h := parseExp_tokens e e.tokens.length [] le_rfl
  rw [List.append_nil] at h
  rw [parseChunk, h]

/-! ### Documents -/

mutual

/-- The document that stands for the value of an expression. -/
def Exp.doc : Exp → Doc
  | .boolean b => .boolean b
  | .number i => .integer i
  | .string s => .string s
  | .table fields => .table 0 fields.docs

def Fields.docs : Fields → List Doc
  | .nil => []
  | .cons key value rest => key.doc :: value.doc :: rest.docs

end

mutual

/-- Evaluation builds the value of the document. -/
theorem Exp.eval_eq : ∀ (e : Exp) (h : List LuaTable), e.eval h = e.doc.materialise h
  | .boolean _, _ => rfl
  | .number _, _ => rfl
  | .string _, _ => rfl
  | .table fields, h => by
    rw [Exp.eval, Exp.doc, Doc.materialise, fields.store_eq]

theorem Fields.store_eq : ∀ (fs : Fields) (ref : Nat) (h : List LuaTable),
    fs.store ref h = Doc.fillTable ref fs.docs h
  | .nil, _, h => by
    rw [Fields.store, Fields.docs, Doc.fillTable]
    simp
  | .cons key value rest, ref, h => by
    rw [Fields.store, Fields.docs, Doc.fillTable, key.eval_eq]
    simp only [value.eval_eq]
    exact rest.store_eq ref _

end

end LuaBinaryTable
