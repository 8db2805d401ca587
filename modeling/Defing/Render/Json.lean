import Defing.Core.Model

/-!
# JSON values

The values of the JSON library and their compact text. What the library makes
of a text, and the text of a float, are parameters.
-/

namespace Defing

structure JsonNumber where
  text : List Char
  nonempty : text ≠ []
  chars : ∀ c ∈ text, c.isDigit ∨ c = '-' ∨ c = '+' ∨ c = '.' ∨ c = 'e' ∨ c = 'E'

inductive JsonValue
  | null
  | bool (b : Bool)
  | number (n : JsonNumber)
  | string (s : String)
  | array (items : List JsonValue)
  | object (fields : List (String × JsonValue))

class JsonText where
  /-- `serde_json::from_str::<serde_json::Value>`. -/
  fromStr : String → Option JsonValue
  /-- The number of a finite float. -/
  ofFloat : Rat → JsonNumber

def hexDigit (n : Nat) : Char := if n < 10 then Char.ofNat ('0'.toNat + n) else Char.ofNat ('a'.toNat + (n - 10))

/-- A character within a string; all control characters are written with a backslash. -/
def jsonChar (c : Char) : List Char :=
  if c = '"' then ['\\', '"']
  else if c = '\\' then ['\\', '\\']
  else if c = '\n' then ['\\', 'n']
  else if c = '\r' then ['\\', 'r']
  else if c = '\t' then ['\\', 't']
  else if c.toNat = 8 then ['\\', 'b']
  else if c.toNat = 12 then ['\\', 'f']
  else if c.toNat < 32 then ['\\', 'u', '0', '0', hexDigit (c.toNat / 16), hexDigit (c.toNat % 16)]
  else [c]

def jsonString (s : String) : List Char := '"' :: s.toList.flatMap jsonChar ++ ['"']

mutual

def JsonValue.compact : JsonValue → List Char
  | .null => "null".toList
  | .bool true => "true".toList
  | .bool false => "false".toList
  | .number n => n.text
  | .string s => jsonString s
  | .array items => '[' :: compactItems items ++ [']']
  | .object fields => '{' :: compactFields fields ++ ['}']

def compactItems : List JsonValue → List Char
  | [] => []
  | [x] => x.compact
  | x :: y :: items => x.compact ++ ',' :: compactItems (y :: items)

def compactFields : List (String × JsonValue) → List Char
  | [] => []
  | [(k, x)] => jsonString k ++ ':' :: x.compact
  | (k, x) :: y :: fields => jsonString k ++ ':' :: x.compact ++ ',' :: compactFields (y :: fields)

end

/-! ## The characters of a compact text -/

def OnLine (c : Char) : Prop := c ≠ '\n' ∧ c ≠ '\r'

theorem onLine_hexDigit {n : Nat} (hn : n < 16) : OnLine (hexDigit n) := by
  have h : ∀ n : Fin 16, hexDigit n ≠ '\n' ∧ hexDigit n ≠ '\r' := by decide
  exact h ⟨n, hn⟩

theorem onLine_jsonChar (c : Char) : ∀ d ∈ jsonChar c, OnLine d := by
  have hall : ∀ l : List Char, l ∈ [['\\', '"'], ['\\', '\\'], ['\\', 'n'], ['\\', 'r'], ['\\', 't'], ['\\', 'b'], ['\\', 'f']] →
      ∀ d ∈ l, OnLine d := by
    simp [OnLine]
  unfold jsonChar
  split
  · exact hall _ (by simp)
  split
  · exact hall _ (by simp)
  split
  · exact hall _ (by simp)
  split
  · exact hall _ (by simp)
  split
  · exact hall _ (by simp)
  split
  · exact hall _ (by simp)
  split
  · exact hall _ (by simp)
  split
  · rename_i hlt
    have h16 := onLine_hexDigit (n := c.toNat / 16) (by omega)
    have h1 := onLine_hexDigit (n := c.toNat % 16) (Nat.mod_lt _ (by omega))
    simp only [List.mem_cons, List.not_mem_nil, or_false, forall_eq_or_imp, forall_eq]
    exact ⟨by simp [OnLine], by simp [OnLine], by simp [OnLine], by simp [OnLine], h16, h1⟩
  · intro d hd
    obtain rfl := List.mem_singleton.mp hd
    exact ⟨by assumption, by assumption⟩

theorem onLine_jsonString (s : String) : ∀ c ∈ jsonString s, OnLine c := by
  intro c hc
  simp only [jsonString, List.cons_append, List.mem_cons, List.mem_append, List.mem_flatMap, List.not_mem_nil, or_false] at hc
  rcases hc with rfl | ⟨d, -, hd⟩ | rfl
  · simp [OnLine]
  · exact onLine_jsonChar d c hd
  · simp [OnLine]

mutual

theorem onLine_compact : ∀ (v : JsonValue), ∀ c ∈ v.compact, OnLine c
  | .null => by simp [JsonValue.compact, OnLine]
  | .bool true => by simp [JsonValue.compact, OnLine]
  | .bool false => by simp [JsonValue.compact, OnLine]
  | .number n => by
    intro c hc
    rcases n.chars c hc with h | rfl | rfl | rfl | rfl | rfl
    · constructor <;> rintro rfl <;> revert h <;> decide
    all_goals simp [OnLine]
  | .string s => onLine_jsonString s
  | .array items => by
    intro c hc
    simp only [JsonValue.compact, List.cons_append, List.mem_cons, List.mem_append, List.not_mem_nil, or_false] at hc
    rcases hc with rfl | hc | rfl
    · simp [OnLine]
    · exact onLine_compactItems items c hc
    · simp [OnLine]
  | .object fields => by
    intro c hc
    simp only [JsonValue.compact, List.cons_append, List.mem_cons, List.mem_append, List.not_mem_nil, or_false] at hc
    rcases hc with rfl | hc | rfl
    · simp [OnLine]
    · exact onLine_compactFields fields c hc
    · simp [OnLine]

theorem onLine_compactItems : ∀ (items : List JsonValue), ∀ c ∈ compactItems items, OnLine c
  | [] => by simp [compactItems]
  | [x] => by
    rw [compactItems]
    exact onLine_compact x
  | x :: y :: items => by
    intro c hc
    simp only [compactItems, List.mem_append, List.mem_cons] at hc
    rcases hc with hc | rfl | hc
    · exact onLine_compact x c hc
    · simp [OnLine]
    · exact onLine_compactItems (y :: items) c hc

theorem onLine_compactFields : ∀ (fields : List (String × JsonValue)), ∀ c ∈ compactFields fields, OnLine c
  | [] => by simp [compactFields]
  | [(k, x)] => by
    intro c hc
    simp only [compactFields, List.mem_append, List.mem_cons] at hc
    rcases hc with hc | rfl | hc
    · exact onLine_jsonString k c hc
    · simp [OnLine]
    · exact onLine_compact x c hc
  | (k, x) :: y :: fields => by
    intro c hc
    simp only [compactFields, List.mem_append, List.mem_cons] at hc
    rcases hc with (hc | rfl | hc) | rfl | hc
    · exact onLine_jsonString k c hc
    · simp [OnLine]
    · exact onLine_compact x c hc
    · simp [OnLine]
    · exact onLine_compactFields (y :: fields) c hc

end

/-- The compact text of a value that is no string begins with a character that is neither a quote nor a comma. -/
theorem compact_head {v : JsonValue} (hv : ∀ s, v ≠ .string s) : ∃ c rest, v.compact = c :: rest ∧ c ≠ '"' ∧ c ≠ ',' := by
  cases v with
  | null => exact ⟨_, _, rfl, by decide, by decide⟩
  | bool b => cases b <;> exact ⟨_, _, rfl, by decide, by decide⟩
  | number n =>
    obtain ⟨c, rest, hc⟩ := List.exists_cons_of_ne_nil n.nonempty
    have hchars := n.chars c (by rw [hc]; exact List.mem_cons_self)
    refine ⟨c, rest, hc, ?_, ?_⟩ <;> rintro rfl <;> revert hchars <;> decide
  | string s => exact absurd rfl (hv s)
  | array items => exact ⟨_, _, rfl, by decide, by decide⟩
  | object fields => exact ⟨_, _, rfl, by decide, by decide⟩

end Defing
