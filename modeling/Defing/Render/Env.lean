import Mathlib.Algebra.Order.BigOperators.Group.List
import Mathlib.Algebra.Order.Ring.Nat
import Defing.Lib.DotEnv
import Defing.Core.Diff
import Defing.Render.Json

/-!
# Environment files of a snapshot

A line for each item, and what a reader of the file makes of it. Arrays are
printed without quotes and with their strings only, and it is arrays that may
come out as other assignments, or with less in them.
-/

namespace Defing

open DotEnv (isBreak breaks Stands Assignment)

/-! ## The renderer -/

section
variable [JsonText]

def JsonNumber.ofInt : Int → JsonNumber
  | .ofNat n =>
    { text := Nat.toDigits 10 n
      nonempty := Nat.toDigits_ne_nil
      chars := fun _ hc => .inl (Nat.isDigit_of_mem_toDigits (by omega) (by omega) hc) }
  | .negSucc n =>
    { text := '-' :: Nat.toDigits 10 (n + 1)
      nonempty := List.cons_ne_nil _ _
      chars := fun _ hc => (List.mem_cons.mp hc).elim (fun h => .inr (.inl h))
        fun h => .inl (Nat.isDigit_of_mem_toDigits (by omega) (by omega) h) }

def plainValue : Value → JsonValue
  | .string s => .string s
  | .int i => .number (.ofInt i)
  | .float f => .number (JsonText.ofFloat f)
  | .bool b => .bool b
  | .json s => (JsonText.fromStr s).getD (.string s)
  | .array items => .array (items.map .string)
  | .secret _ => .string "***"

def plainTree (groups : SnapshotMap) : StrMap (StrMap JsonValue) := groups.map fun _ items => items.map fun _ v => plainValue v

end

def replaceChar (c : Char) (with_ : List Char) (s : List Char) : List Char := s.flatMap fun d => if d = c then with_ else [d]

def asStr : JsonValue → List Char
  | .string s => s.toList
  | _ => []

def needsQuotes (s : List Char) : Bool := s = [] || s.any fun c => c ∈ [' ', '#', '"', '\\', '\n', '\r']

def envValue : JsonValue → List Char
  | .string s =>
    if needsQuotes s.toList then '"' :: replaceChar '"' ['\\', '"'] (replaceChar '\\' ['\\', '\\'] s.toList) ++ ['"']
    else s.toList
  | .array items => [','].intercalate (items.map asStr)
  | other => other.compact

def upperKey (key : String) : List Char := key.toList.map Char.toUpper

def renderEnv (tree : StrMap (StrMap JsonValue)) : List Char :=
  tree.toList.flatMap fun (_, items) => items.toList.flatMap fun (k, v) => upperKey k ++ '=' :: envValue v ++ ['\n']

/-! ## Items -/

def snapshotItems {α : Type} (groups : StrMap (StrMap α)) : List (String × α) := groups.toList.flatMap fun e => e.2.toList

theorem renderEnv_eq (tree : StrMap (StrMap JsonValue)) :
    renderEnv tree = DotEnv.lines ((snapshotItems tree).map fun e => (upperKey e.1, envValue e.2)) := by
  simp only [renderEnv, DotEnv.lines, snapshotItems, List.flatMap_map, List.flatMap_assoc]

theorem snapshotItems_plainTree [JsonText] (groups : SnapshotMap) :
    snapshotItems (plainTree groups) = (snapshotItems groups).map fun e => (e.1, plainValue e.2) := by
  simp only [snapshotItems, plainTree, Std.ExtTreeMap.toList_map, List.flatMap_map, List.map_flatMap]

/-- Letters, digits, dots, dashes and underscores. -/
def Identifier (key : String) : Prop := key ≠ "" ∧ ∀ c ∈ key.toList, DotEnv.isNameChar c = true

instance (key : String) : Decidable (Identifier key) := @instDecidableAnd _ _ inferInstance (List.decidableBAll _ _)

theorem isNameChar_toUpper {c : Char} (h : DotEnv.isNameChar c = true) : DotEnv.isNameChar c.toUpper = true := by
  by_cases hl : 97 ≤ c.toNat ∧ c.toNat ≤ 122
  · have hall : ∀ n : Fin 26, DotEnv.isNameChar (Char.ofNat (97 + n)).toUpper = true := by decide
    have hc : c = Char.ofNat (97 + (c.toNat - 97)) := by
      rw [Nat.add_sub_cancel' hl.1, Char.ofNat_toNat]
    rw [hc]
    exact hall ⟨c.toNat - 97, by omega⟩
  · have hsame : c.toUpper = c := by
      unfold Char.toUpper
      exact dif_neg hl
    rwa [hsame]

theorem Identifier.name {key : String} (h : Identifier key) : DotEnv.Name (upperKey key) := by
  refine ⟨fun he => h.1 ?_, fun c hc => ?_⟩
  · rwa [upperKey, List.map_eq_nil_iff, String.toList_eq_nil_iff] at he
  · obtain ⟨d, hd, rfl⟩ := List.mem_map.mp hc
    exact isNameChar_toUpper (h.2 d hd)

/-! ## What an assignment has to carry -/

def plainText : JsonValue → List Char
  | .string s => s.toList
  | v => v.compact

def plainTexts : JsonValue → List (List Char)
  | .array items => items.map plainText
  | v => [plainText v]

def InOrder : List (List Char) → List Char → Prop
  | [], _ => True
  | part :: parts, text => ∃ before after, text = before ++ part ++ after ∧ InOrder parts after

/-- The name of the item, with all of its value. -/
def Carries (e : String × JsonValue) (a : Assignment) : Prop := a.1 = upperKey e.1 ∧ InOrder (plainTexts e.2) a.2

/-- A value that comes out whole: if it is an array, it has only strings without line breaks, and the first one
begins with no quote. -/
def EnvSafe (cr : Bool) : JsonValue → Prop
  | .array items => (∀ x ∈ items, ∃ s, x = .string s ∧ ∀ c ∈ s.toList, isBreak cr c = false) ∧
      ∀ s, items.head? = some (.string s) → s.toList.head? ≠ some '"'
  | _ => True

variable {cr : Bool} {parts : List (List Char)} {text : List Char} {v : JsonValue}

theorem InOrder.prepend (h : InOrder parts text) (before : List Char) : InOrder parts (before ++ text) := by
  cases parts with
  | nil => trivial
  | cons part parts =>
    obtain ⟨b, a, rfl, h⟩ := h
    exact ⟨before ++ b, a, by simp, h⟩

theorem inOrder_self (text : List Char) : InOrder [text] text := ⟨[], [], by simp, trivial⟩

theorem inOrder_intercalate (parts : List (List Char)) : InOrder parts ([','].intercalate parts) := by
  induction parts with
  | nil => trivial
  | cons part parts ih =>
    cases parts with
    | nil => exact ⟨[], [], by simp, trivial⟩
    | cons next parts =>
      refine ⟨[], ',' :: [','].intercalate (next :: parts), ?_, ih.prepend [',']⟩
      rw [List.intercalate_cons_cons]
      simp

theorem InOrder.countP (p : Char → Bool) (h : InOrder parts text) : (parts.map (List.countP p)).sum ≤ text.countP p := by
  induction parts generalizing text with
  | nil => exact Nat.zero_le _
  | cons part parts ih =>
    obtain ⟨b, a, rfl, h⟩ := h
    have := ih h
    rw [List.map_cons, List.sum_cons, List.countP_append, List.countP_append]
    omega

theorem countP_intercalate (p : Char → Bool) (hp : p ',' = false) (parts : List (List Char)) :
    ([','].intercalate parts).countP p = (parts.map (List.countP p)).sum := by
  induction parts with
  | nil => rfl
  | cons part parts ih =>
    cases parts with
    | nil => simp
    | cons next parts =>
      rw [List.intercalate_cons_cons, List.countP_append, List.countP_append, ih, List.map_cons, List.sum_cons]
      simp [hp]

theorem mem_intercalate {c : Char} (hc : c ≠ ',') : c ∈ [','].intercalate parts ↔ ∃ part ∈ parts, c ∈ part := by
  induction parts with
  | nil => simp
  | cons part parts ih =>
    cases parts with
    | nil => simp
    | cons next parts =>
      rw [List.intercalate_cons_cons, List.mem_append, List.mem_append, ih]
      simp [hc]

theorem head?_intercalate {part : List Char} : ([','].intercalate (part :: parts)).head? = some '"' ↔ part.head? = some '"' := by
  cases parts with
  | nil => simp
  | cons next parts =>
    rw [List.intercalate_cons_cons]
    cases part <;> simp

/-! ## Values and their texts -/

def notComma (c : Char) : Bool := c ≠ ','

theorem notComma_compact (hv : ∀ s, v ≠ .string s) : 0 < v.compact.countP notComma := by
  obtain ⟨c, rest, hc, -, hcomma⟩ := compact_head hv
  rw [hc, List.countP_cons]
  simp [notComma, hcomma]

theorem asStr_of_not_string (hv : ∀ s, v ≠ .string s) : asStr v = [] := by
  cases v <;> first | rfl | exact absurd rfl (hv _)

theorem plainText_of_not_string (hv : ∀ s, v ≠ .string s) : plainText v = v.compact := by
  cases v <;> first | rfl | exact absurd rfl (hv _)

theorem countP_asStr_le (p : Char → Bool) (v : JsonValue) : (asStr v).countP p ≤ (plainText v).countP p := by
  cases v with
  | string s => exact Nat.le_refl _
  | _ => exact Nat.zero_le _

theorem replace_eq_quote (s : List Char) :
    '"' :: replaceChar '"' ['\\', '"'] (replaceChar '\\' ['\\', '\\'] s) ++ ['"'] = DotEnv.quote s := by
  have h : replaceChar '"' ['\\', '"'] (replaceChar '\\' ['\\', '\\'] s) = DotEnv.escape s := by
    rw [replaceChar, replaceChar, List.flatMap_assoc]
    refine List.flatMap_congr fun c _ => ?_
    by_cases hb : c = '\\'
    · subst hb
      rfl
    · by_cases hq : c = '"'
      · subst hq
        rfl
      · simp [hb, hq]
  rw [h, DotEnv.quote]

theorem isBreak_of_onLine {c : Char} (h : OnLine c) : isBreak cr c = false := by
  simp [isBreak, h.1, h.2]

theorem breaks_escape (s : List Char) : breaks cr (DotEnv.escape s) = breaks cr s := by
  have hb : isBreak cr '\\' = false := by simp [isBreak]
  induction s with
  | nil => rfl
  | cons c s ih =>
    rw [DotEnv.escape_cons, DotEnv.breaks_append, ih, DotEnv.breaks_cons]
    split
    · rw [DotEnv.breaks_cons, DotEnv.breaks_cons, hb]
      simp [breaks]
      omega
    · rw [DotEnv.breaks_cons]
      simp [breaks]
      omega

theorem breaks_envValue (v : JsonValue) : breaks cr (envValue v) ≤ ((plainTexts v).map (List.countP (isBreak cr))).sum := by
  cases v with
  | string s =>
    have hq : isBreak cr '"' = false := by simp [isBreak]
    rw [envValue]
    split
    · rw [replace_eq_quote, DotEnv.quote, List.cons_append, DotEnv.breaks_cons, DotEnv.breaks_append, breaks_escape, hq]
      simp [plainTexts, plainText, breaks, hq]
    · simp [plainTexts, plainText, breaks]
  | array items =>
    rw [envValue, breaks, countP_intercalate _ (by simp [isBreak]), plainTexts, List.map_map, List.map_map]
    exact List.sum_le_sum fun v _ => countP_asStr_le _ v
  | null | bool b | number n | object fields => simp [envValue, plainTexts, plainText, breaks]

def envText : JsonValue → List Char
  | .string s => s.toList
  | v => envValue v

theorem readValue_envValue (h : EnvSafe cr v) (rest : List Char) :
    DotEnv.readValue cr (envValue v ++ '\n' :: rest) = some (envText v, rest) := by
  have hcompact : (∀ s, v ≠ .string s) → DotEnv.readValue cr (v.compact ++ '\n' :: rest) = some (v.compact, rest) := by
    intro hv
    obtain ⟨c, tail, hc, hquote, -⟩ := compact_head hv
    refine DotEnv.readValue_plain (fun c hc => isBreak_of_onLine (onLine_compact v c hc)) ?_ rest
    rw [hc]
    simpa using hquote
  cases v with
  | string s =>
    rw [envValue]
    split
    · rw [replace_eq_quote]
      exact DotEnv.readValue_quote _ rest
    · rename_i hplain
      have hchars : s.toList ≠ [] ∧ ∀ c ∈ s.toList, c ∉ [' ', '#', '"', '\\', '\n', '\r'] := by
        simpa [needsQuotes] using hplain
      refine DotEnv.readValue_plain (fun c hc => ?_) (fun hhead => ?_) rest
      · have := hchars.2 c hc
        exact isBreak_of_onLine ⟨fun e => this (by simp [e]), fun e => this (by simp [e])⟩
      · exact hchars.2 '"' (List.mem_of_head? hhead) (by simp)
  | array items =>
    rw [envValue]
    refine DotEnv.readValue_plain (fun c hc => ?_) (fun hhead => ?_) rest
    · by_cases hcomma : c = ','
      · rw [hcomma]
        simp [isBreak]
      · obtain ⟨part, hpart, hc⟩ := (mem_intercalate hcomma).mp hc
        obtain ⟨x, hx, rfl⟩ := List.mem_map.mp hpart
        obtain ⟨s, rfl, hs⟩ := h.1 x hx
        exact hs c hc
    · cases items with
      | nil => cases hhead
      | cons x items =>
        rw [List.map_cons, head?_intercalate] at hhead
        obtain ⟨s, rfl, -⟩ := h.1 x List.mem_cons_self
        exact h.2 s rfl hhead
  | null => exact hcompact (by simp)
  | bool b => exact hcompact (by simp)
  | number n => exact hcompact (by simp)
  | object fields => exact hcompact (by simp)

theorem inOrder_envText (h : EnvSafe cr v) : InOrder (plainTexts v) (envText v) := by
  cases v with
  | array items =>
    have heq : items.map plainText = items.map asStr :=
      List.map_congr_left fun x hx => by
        obtain ⟨s, rfl, -⟩ := h.1 x hx
        rfl
    rw [plainTexts, heq]
    exact inOrder_intercalate _
  | string s => exact inOrder_self _
  | null | bool b | number n | object fields => exact inOrder_self _

/-- An array that is read for what was printed, with all its elements, was printed well. -/
theorem envSafe_of_stands {value : List Char} (h : Stands cr (envValue v) value) (hcarries : InOrder (plainTexts v) value) :
    EnvSafe cr v := by
  cases v with
  | array items =>
    have hle := hcarries.countP notComma
    have hraw : (envValue (.array items)).countP notComma = (items.map fun x => (asStr x).countP notComma).sum := by
      rw [envValue, countP_intercalate _ (by simp [notComma]), List.map_map]
      rfl
    have hplain : ((plainTexts (.array items)).map (List.countP notComma)).sum = (items.map fun x => (plainText x).countP notComma).sum := by
      rw [plainTexts, List.map_map]
      rfl
    rw [hplain] at hle
    have hsum : (items.map fun x => (asStr x).countP notComma).sum ≤ (items.map fun x => (plainText x).countP notComma).sum :=
      List.sum_le_sum fun x _ => countP_asStr_le _ x
    generalize hraw' : envValue (.array items) = raw at h hraw
    cases h with
    | @quoted value body hbody _ =>
      have := hbody notComma
      rw [List.cons_append, List.countP_cons, List.countP_append] at hraw
      simp [notComma] at hraw this hle hsum
      omega
    | plain hv hq =>
      subst hraw'
      rw [hraw] at hle
      have hstring : ∀ x ∈ items, ∃ s, x = .string s := by
        intro x hx
        by_contra hnot
        rw [not_exists] at hnot
        -- what is not a string would be missing
        have hlt : (asStr x).countP notComma < (plainText x).countP notComma := by
          rw [asStr_of_not_string hnot, plainText_of_not_string hnot]
          exact notComma_compact hnot
        have := List.sum_lt_sum _ _ (fun x (_ : x ∈ items) => countP_asStr_le notComma x) ⟨x, hx, hlt⟩
        omega
      refine ⟨fun x hx => ?_, fun s hs hhead => ?_⟩
      · obtain ⟨s, rfl⟩ := hstring x hx
        refine ⟨s, rfl, fun c hc => ?_⟩
        by_cases hcomma : c = ','
        · rw [hcomma]
          simp [isBreak]
        · refine hv c ((mem_intercalate hcomma).mpr ⟨s.toList, ?_, hc⟩)
          exact List.mem_map.mpr ⟨_, hx, rfl⟩
      · cases items with
        | nil => cases hs
        | cons x items =>
          obtain rfl := Option.some.inj hs
          exact hq (head?_intercalate.mpr hhead)
  | _ => trivial

/-! ## Files -/

theorem forall_of_forall₂ {α β : Type} {R S : α → β → Prop} {P : α → Prop} {l : List α} {l' : List β}
    (h : List.Forall₂ R l l') (h' : List.Forall₂ S l l') (hp : ∀ a b, R a b → S a b → P a) : ∀ a ∈ l, P a := by
  induction h with
  | nil => exact fun _ h => absurd h List.not_mem_nil
  | cons hr _ ih =>
    cases h' with
    | cons hs h' => exact List.forall_mem_cons.mpr ⟨hp _ _ hr hs, ih h'⟩

/-- Reading the file back gives one assignment for each item, named after it and with all of its value, exactly if
no array has an element that is no string, a string with a line break, or a quote to begin with. -/
theorem env_faithful_iff [JsonText] (cr : Bool) (groups : SnapshotMap)
    (hkeys : ∀ e ∈ snapshotItems groups, Identifier e.1) :
    (∃ assignments, DotEnv.parse cr (renderEnv (plainTree groups)) = some assignments ∧
        List.Forall₂ (fun e a => Carries (e.1, plainValue e.2) a) (snapshotItems groups) assignments) ↔
      ∀ e ∈ snapshotItems groups, EnvSafe cr (plainValue e.2) := by
  have hrender : renderEnv (plainTree groups) =
      DotEnv.lines ((snapshotItems groups).map fun e => (upperKey e.1, envValue (plainValue e.2))) := by
    rw [renderEnv_eq, snapshotItems_plainTree, List.map_map]
    rfl
  rw [hrender, DotEnv.parse]
  generalize snapshotItems groups = items at hkeys
  constructor
  · intro ⟨assignments, hparse, hcarries⟩ e he
    have hnames : ∀ e ∈ items.map fun e => (upperKey e.1, envValue (plainValue e.2)), DotEnv.Name e.1 := by
      intro e' he'
      obtain ⟨e, he, rfl⟩ := List.mem_map.mp he'
      exact (hkeys e he).name
    have hb := hcarries.imp fun e a h => Nat.le_trans (breaks_envValue (plainValue e.2)) (h.2.countP (DotEnv.isBreak cr))
    have hstands := DotEnv.stands_of_parseLines _ hparse hnames (List.forall₂_map_left_iff.mpr hb)
    rw [List.forall₂_map_left_iff] at hstands
    exact forall_of_forall₂ hstands hcarries (fun _ _ h h' => envSafe_of_stands h.2 h'.2) e he
  · intro hsafe
    have hlines : List.Forall₂ (fun e value => DotEnv.Name e.1 ∧
          ∀ rest, DotEnv.readValue cr (e.2 ++ '\n' :: rest) = some (value, rest))
        (items.map fun e => (upperKey e.1, envValue (plainValue e.2))) (items.map fun e => envText (plainValue e.2)) := by
      rw [List.forall₂_map_left_iff, List.forall₂_map_right_iff, List.forall₂_same]
      exact fun e he => ⟨(hkeys e he).name, fun rest => readValue_envValue (hsafe e he) rest⟩
    refine ⟨_, DotEnv.parseLines_lines hlines _ (DotEnv.length_le_lines _), ?_⟩
    rw [List.zipWith_map, List.zipWith_self, List.forall₂_map_right_iff, List.forall₂_same]
    exact fun e he => ⟨rfl, inOrder_envText (hsafe e he)⟩

abbrev sampleJsonText : JsonText where
  fromStr s := if s = "[1,2]" then some (.array [.number (.ofInt 1), .number (.ofInt 2)]) else none
  ofFloat f :=
    { text := (JsonNumber.ofInt f.num).text ++ ['.', '0']
      nonempty := by simp
      chars := fun c hc => (List.mem_append.mp hc).elim ((JsonNumber.ofInt f.num).chars c) fun h => by
        rcases List.mem_cons.mp h with rfl | h
        · simp
        · exact .inl (by rw [List.mem_singleton.mp h]; decide) }

section
attribute [local instance] sampleJsonText

def plainGroups : SnapshotMap := setItem (setItem ∅ "app" "greeting" (.string "hello\n\"world\"")) "app" "tags" (.array ["x", "y z"])

theorem env_faithful_sample :
    ∃ assignments, DotEnv.parse true (renderEnv (plainTree plainGroups)) = some assignments ∧
      List.Forall₂ (fun e a => Carries (e.1, plainValue e.2) a) (snapshotItems plainGroups) assignments := by
  have hitems : snapshotItems plainGroups = [("greeting", .string "hello\n\"world\""), ("tags", .array ["x", "y z"])] := by
    decide +kernel
  refine (env_faithful_iff true plainGroups (by rw [hitems]; decide)).mpr ?_
  rw [hitems]
  refine List.forall_mem_cons.mpr ⟨trivial, List.forall_mem_singleton.mpr ⟨?_, fun s hs => ?_⟩⟩
  · intro x hx
    obtain ⟨s, hs, rfl⟩ := List.mem_map.mp hx
    have hline : ∀ s ∈ ["x", "y z"], ∀ c ∈ s.toList, isBreak true c = false := by simp [isBreak]
    exact ⟨s, rfl, hline s hs⟩
  · obtain rfl := JsonValue.string.inj (Option.some.inj hs)
    decide

def injectedGroups : SnapshotMap := setItem ∅ "app" "tags" (.array ["x\nADMIN=1"])

theorem env_injection :
    ¬ ∀ (cr : Bool) (groups : SnapshotMap), (∀ e ∈ snapshotItems groups, Identifier e.1) →
      ∃ assignments, DotEnv.parse cr (renderEnv (plainTree groups)) = some assignments ∧
        List.Forall₂ (fun e a => Carries (e.1, plainValue e.2) a) (snapshotItems groups) assignments := by
  intro h
  have hitems : snapshotItems injectedGroups = [("tags", .array ["x\nADMIN=1"])] := by decide +kernel
  obtain ⟨assignments, hparse, hcarries⟩ := h false injectedGroups (by rw [hitems]; decide)
  have hread : DotEnv.parse false (renderEnv (plainTree injectedGroups)) =
      some [("TAGS".toList, "x".toList), ("ADMIN".toList, "1".toList)] := by decide +kernel
  obtain rfl := Option.some.inj (hread.symm.trans hparse)
  have hlength := hcarries.length_eq
  rw [hitems] at hlength
  cases hlength

end

end Defing
