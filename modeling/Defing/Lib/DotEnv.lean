import Mathlib.Algebra.Order.Ring.Nat
import Mathlib.Data.List.Basic

/-!
# Environment files

The plain grammar of environment files: a name, an equals sign and a value to
the end of the line. A value in double quotes may span lines and has
backslashes before quotes and backslashes; no other value spans lines. Lines
without anything on them are skipped.
-/

namespace DotEnv

def isBreak (cr : Bool) (c : Char) : Bool := c = '\n' || cr && c = '\r'

def isNameChar (c : Char) : Bool := c.isAlphanum || c = '.' || c = '_' || c = '-'

/-! ## Reading -/

def readQuoted : List Char → Option (List Char × List Char)
  | [] => none
  | '"' :: rest => some ([], rest)
  | '\\' :: '\\' :: rest => (readQuoted rest).map fun r => ('\\' :: r.1, r.2)
  | '\\' :: '"' :: rest => (readQuoted rest).map fun r => ('"' :: r.1, r.2)
  | c :: rest => (readQuoted rest).map fun r => (c :: r.1, r.2)

def endLine (cr : Bool) : List Char → Option (List Char)
  | [] => some []
  | c :: rest => if isBreak cr c then some rest else none

def readPlain (cr : Bool) (text : List Char) : Option (List Char × List Char) :=
  (endLine cr (text.dropWhile fun c => !isBreak cr c)).map fun rest => (text.takeWhile fun c => !isBreak cr c, rest)

def readValue (cr : Bool) : List Char → Option (List Char × List Char)
  | '"' :: rest => (readQuoted rest).bind fun r => (endLine cr r.2).map fun rest => (r.1, rest)
  | text => readPlain cr text

abbrev Assignment := List Char × List Char

def readAssignment (cr : Bool) (text : List Char) : Option (Assignment × List Char) :=
  let name := text.takeWhile isNameChar
  match text.dropWhile isNameChar with
  | '=' :: rest => if name = [] then none else (readValue cr rest).map fun r => ((name, r.1), r.2)
  | _ => none

def parseLines (cr : Bool) : (fuel : Nat) → List Char → Option (List Assignment)
  | _, [] => some []
  | 0, _ :: _ => none
  | fuel + 1, c :: rest =>
    if isBreak cr c then parseLines cr fuel rest
    else (readAssignment cr (c :: rest)).bind fun r => (parseLines cr fuel r.2).map fun l => r.1 :: l

def parse (cr : Bool) (text : List Char) : Option (List Assignment) := parseLines cr text.length text

example : parse false "A=x\nB=\"y\\\"\nz\"\n".toList = some [("A".toList, "x".toList), ("B".toList, "y\"\nz".toList)] := by
  decide +kernel

/-! ## Writing -/

def escape (s : List Char) : List Char := s.flatMap fun c => if c = '\\' ∨ c = '"' then ['\\', c] else [c]

def quote (s : List Char) : List Char := '"' :: escape s ++ ['"']

def lines (l : List (List Char × List Char)) : List Char := l.flatMap fun e => e.1 ++ '=' :: e.2 ++ ['\n']

variable {cr : Bool} {text value rest raw : List Char}

theorem escape_cons (c : Char) (s : List Char) :
    escape (c :: s) = (if c = '\\' ∨ c = '"' then ['\\', c] else [c]) ++ escape s := List.flatMap_cons

theorem readQuoted_escape (s rest : List Char) : readQuoted (escape s ++ '"' :: rest) = some (s, rest) := by
  induction s with
  | nil => rfl
  | cons c s ih =>
    rw [escape_cons]
    by_cases hb : c = '\\'
    · subst hb
      show readQuoted ('\\' :: '\\' :: (escape s ++ '"' :: rest)) = _
      rw [readQuoted, ih]
      rfl
    · by_cases hq : c = '"'
      · subst hq
        show readQuoted ('\\' :: '"' :: (escape s ++ '"' :: rest)) = _
        rw [readQuoted, ih]
        rfl
      · rw [if_neg (by simp [hb, hq])]
        show readQuoted (c :: (escape s ++ '"' :: rest)) = _
        rw [readQuoted, ih]
        · rfl
        · exact fun h => absurd h hq
        · exact fun _ h => absurd h hb
        · exact fun _ h => absurd h hb

theorem readValue_quote (s rest : List Char) : readValue cr (quote s ++ '\n' :: rest) = some (s, rest) := by
  have hread : readQuoted (escape s ++ '"' :: '\n' :: rest) = some (s, '\n' :: rest) := readQuoted_escape s _
  have he : quote s ++ '\n' :: rest = '"' :: (escape s ++ '"' :: '\n' :: rest) := by simp [quote]
  rw [he, readValue, hread]
  simp [endLine, isBreak]

theorem readPlain_of (hv : ∀ c ∈ value, isBreak cr c = false) (rest : List Char) :
    readPlain cr (value ++ '\n' :: rest) = some (value, rest) := by
  have hv' : ∀ c ∈ value, (!isBreak cr c) = true := fun c hc => by simp [hv c hc]
  rw [readPlain, List.takeWhile_append_of_pos hv', List.dropWhile_append_of_pos hv']
  simp [endLine, isBreak]

theorem readValue_plain (hv : ∀ c ∈ value, isBreak cr c = false) (hq : value.head? ≠ some '"') (rest : List Char) :
    readValue cr (value ++ '\n' :: rest) = some (value, rest) := by
  rw [← readPlain_of hv rest]
  unfold readValue
  split
  · rename_i h
    cases value with
    | nil => cases h
    | cons c value => exact absurd (congrArg List.head? h) hq
  · rfl

/-! ## What a value was read from -/

/-- How a value may stand in a file: as it is, or in quotes, where only backslashes are added. -/
inductive Stands (cr : Bool) : List Char → List Char → Prop
  | plain {value : List Char} (hv : ∀ c ∈ value, isBreak cr c = false) (hq : value.head? ≠ some '"') : Stands cr value value
  | quoted {value body : List Char} (hle : ∀ p : Char → Bool, value.countP p ≤ body.countP p)
      (heq : ∀ p : Char → Bool, p '\\' = false → value.countP p = body.countP p) : Stands cr ('"' :: body ++ ['"']) value

theorem readQuoted_some (h : readQuoted text = some (value, rest)) :
    ∃ body, text = body ++ '"' :: rest ∧ (∀ p : Char → Bool, value.countP p ≤ body.countP p) ∧
      ∀ p : Char → Bool, p '\\' = false → value.countP p = body.countP p := by
  fun_induction readQuoted text generalizing value rest with
  | case1 => cases h
  | case2 rest' =>
    cases h
    exact ⟨[], rfl, fun _ => Nat.le_refl _, fun _ _ => rfl⟩
  | case3 text ih =>
    obtain ⟨⟨v, r⟩, hr, he⟩ := Option.map_eq_some_iff.mp h
    cases he
    obtain ⟨body, rfl, hle, heq⟩ := ih hr
    refine ⟨'\\' :: '\\' :: body, rfl, fun p => ?_, fun p hp => ?_⟩
    · have := hle p
      simp only [List.countP_cons]
      omega
    · simp only [List.countP_cons, heq p hp, hp]
      simp
  | case4 text ih =>
    obtain ⟨⟨v, r⟩, hr, he⟩ := Option.map_eq_some_iff.mp h
    cases he
    obtain ⟨body, rfl, hle, heq⟩ := ih hr
    refine ⟨'\\' :: '"' :: body, rfl, fun p => ?_, fun p hp => ?_⟩
    · have := hle p
      simp only [List.countP_cons]
      omega
    · simp only [List.countP_cons, heq p hp, hp]
      simp
  | case5 c text _ _ _ ih =>
    obtain ⟨⟨v, r⟩, hr, he⟩ := Option.map_eq_some_iff.mp h
    cases he
    obtain ⟨body, rfl, hle, heq⟩ := ih hr
    refine ⟨c :: body, rfl, fun p => ?_, fun p hp => ?_⟩
    · simp only [List.countP_cons]
      exact Nat.add_le_add_right (hle p) _
    · simp only [List.countP_cons, heq p hp]

def Ends (cr : Bool) (ending rest : List Char) : Prop := ending = [] ∧ rest = [] ∨ ∃ c, isBreak cr c = true ∧ ending = [c]

theorem endLine_some (h : endLine cr text = some rest) : ∃ ending, text = ending ++ rest ∧ Ends cr ending rest := by
  cases text with
  | nil =>
    cases h
    exact ⟨[], rfl, .inl ⟨rfl, rfl⟩⟩
  | cons c text =>
    rw [endLine] at h
    split at h
    · cases h
      exact ⟨[c], rfl, .inr ⟨c, ‹_›, rfl⟩⟩
    · cases h

theorem readPlain_some (h : readPlain cr text = some (value, rest)) :
    (∃ ending, text = value ++ ending ++ rest ∧ Ends cr ending rest) ∧ ∀ c ∈ value, isBreak cr c = false := by
  obtain ⟨r, hr, he⟩ := Option.map_eq_some_iff.mp h
  cases he
  obtain ⟨ending, hdrop, hends⟩ := endLine_some hr
  refine ⟨⟨ending, ?_, hends⟩, fun c hc => ?_⟩
  · rw [List.append_assoc, ← hdrop, List.takeWhile_append_dropWhile]
  · have := List.all_eq_true.mp List.all_takeWhile c hc
    simpa using this

theorem readValue_some (h : readValue cr text = some (value, rest)) :
    ∃ raw ending, text = raw ++ ending ++ rest ∧ Ends cr ending rest ∧ Stands cr raw value := by
  unfold readValue at h
  split at h
  · obtain ⟨⟨v, r⟩, hr, h⟩ := Option.bind_eq_some_iff.mp h
    obtain ⟨r', hr', he⟩ := Option.map_eq_some_iff.mp h
    cases he
    obtain ⟨body, rfl, hle, heq⟩ := readQuoted_some hr
    obtain ⟨ending, rfl, hends⟩ := endLine_some hr'
    exact ⟨'"' :: body ++ ['"'], ending, by simp, hends, .quoted hle heq⟩
  · rename_i hq
    obtain ⟨⟨ending, rfl, hends⟩, hv⟩ := readPlain_some h
    refine ⟨value, ending, rfl, hends, .plain hv fun he => ?_⟩
    cases value with
    | nil => cases he
    | cons c value =>
      obtain rfl := Option.some.inj he
      exact hq _ rfl

/-! ## Counting line breaks -/

def breaks (cr : Bool) (text : List Char) : Nat := text.countP (isBreak cr)

theorem breaks_append (text text' : List Char) : breaks cr (text ++ text') = breaks cr text + breaks cr text' :=
  List.countP_append

theorem breaks_cons (c : Char) (text : List Char) :
    breaks cr (c :: text) = breaks cr text + if isBreak cr c then 1 else 0 := List.countP_cons

theorem isBreak_of_nameChar {c : Char} (h : isNameChar c = true) : isBreak cr c = false := by
  have hne : c ≠ '\n' ∧ c ≠ '\r' := by
    constructor <;> rintro rfl <;> revert h <;> decide
  simp [isBreak, hne]

theorem breaks_eq_zero (h : ∀ c ∈ text, isBreak cr c = false) : breaks cr text = 0 :=
  List.countP_eq_zero.mpr fun c hc => by simp [h c hc]

theorem Stands.breaks_eq (h : Stands cr raw value) : breaks cr value = breaks cr raw := by
  cases h with
  | plain => rfl
  | quoted hle heq =>
    have hquote : isBreak cr '"' = false := by simp [isBreak]
    have hone : breaks cr ['"'] = 0 := breaks_eq_zero (by simp [hquote])
    rw [List.cons_append, breaks_cons, breaks_append, hone, hquote, breaks, heq _ (by simp [isBreak])]
    rfl

def Terminated (cr : Bool) (text : List Char) : Prop := ∀ c, text.getLast? = some c → isBreak cr c = true

/-- The last character of a value, with the equals sign before it, ends no line. -/
theorem Stands.last (h : Stands cr raw value) : ∃ c, ('=' :: raw).getLast? = some c ∧ isBreak cr c = false := by
  cases h with
  | @plain value hv =>
    rw [List.getLast?_cons]
    refine ⟨_, rfl, ?_⟩
    cases hlast : value.getLast? with
    | none => simp [isBreak]
    | some c => exact hv c (List.mem_of_getLast? hlast)
  | quoted =>
    refine ⟨'"', ?_, by simp [isBreak]⟩
    rw [← List.cons_append, List.getLast?_concat]

theorem readAssignment_some {a : Assignment} (h : readAssignment cr text = some (a, rest)) :
    ∃ raw ending, text = a.1 ++ '=' :: raw ++ ending ++ rest ∧ Ends cr ending rest ∧ Stands cr raw a.2 ∧
      ∀ c ∈ a.1, isNameChar c = true := by
  unfold readAssignment at h
  dsimp only at h
  split at h
  · rename_i rest' hdrop
    split at h
    · cases h
    · obtain ⟨⟨v, r⟩, hr, he⟩ := Option.map_eq_some_iff.mp h
      cases he
      obtain ⟨raw, ending, rfl, hends, hstands⟩ := readValue_some hr
      refine ⟨raw, ending, ?_, hends, hstands, fun c hc => List.all_eq_true.mp List.all_takeWhile c hc⟩
      conv_lhs => rw [← List.takeWhile_append_dropWhile (p := isNameChar) (l := text), hdrop]
      simp
  · cases h

/-- An assignment of a text that does not end within a line has a line break at its end. -/
theorem readAssignment_break {a : Assignment} (ht : Terminated cr text) (h : readAssignment cr text = some (a, rest)) :
    ∃ raw c, text = a.1 ++ '=' :: raw ++ c :: rest ∧ isBreak cr c = true ∧ Stands cr raw a.2 ∧ Terminated cr rest ∧
      ∀ c ∈ a.1, isNameChar c = true := by
  obtain ⟨raw, ending, rfl, hends, hstands, hname⟩ := readAssignment_some h
  have hrest : Terminated cr rest := by
    intro c hc
    refine ht c ?_
    rw [List.getLast?_append, hc]
    rfl
  rcases hends with ⟨rfl, rfl⟩ | ⟨c, hc, rfl⟩
  · obtain ⟨c, hc, hbreak⟩ := hstands.last
    have := ht c (by rw [List.append_nil, List.append_nil, List.getLast?_append, hc]; rfl)
    rw [hbreak] at this
    cases this
  · exact ⟨raw, c, by simp, hc, hstands, hrest, hname⟩

theorem breaks_assignment {a : Assignment} {c : Char} (hname : ∀ c ∈ a.1, isNameChar c = true) (hc : isBreak cr c = true)
    (hstands : Stands cr raw a.2) :
    breaks cr (a.1 ++ '=' :: raw ++ c :: rest) = breaks cr a.2 + 1 + breaks cr rest := by
  have hzero : breaks cr a.1 = 0 := breaks_eq_zero fun c hc => isBreak_of_nameChar (hname c hc)
  have heq : isBreak cr '=' = false := by simp [isBreak]
  rw [breaks_append, breaks_append, breaks_cons, breaks_cons, hzero, heq, hc, hstands.breaks_eq, if_pos rfl]
  simp only [Bool.false_eq_true, if_false]
  omega

theorem parseLines_breaks (fuel : Nat) {l : List Assignment} (ht : Terminated cr text) (h : parseLines cr fuel text = some l) :
    (l.map fun a => breaks cr a.2 + 1).sum ≤ breaks cr text := by
  induction fuel generalizing text l with
  | zero =>
    cases text with
    | nil =>
      cases h
      exact Nat.zero_le _
    | cons => cases h
  | succ fuel ih =>
    cases text with
    | nil =>
      cases h
      exact Nat.zero_le _
    | cons c text =>
      rw [parseLines] at h
      split at h
      · have hrest : Terminated cr text := fun d hd => ht d (by rw [List.getLast?_cons, hd]; rfl)
        have := ih hrest h
        rw [breaks_cons]
        omega
      · obtain ⟨⟨a, rest⟩, ha, h⟩ := Option.bind_eq_some_iff.mp h
        obtain ⟨l', hl', rfl⟩ := Option.map_eq_some_iff.mp h
        obtain ⟨raw, d, hsplit, hd, hstands, hrest, hname⟩ := readAssignment_break ht ha
        have hle := ih hrest hl'
        rw [hsplit, breaks_assignment hname hd hstands, List.map_cons, List.sum_cons, Nat.add_assoc, Nat.add_assoc]
        exact Nat.add_le_add_left (Nat.add_le_add_left hle 1) _

/-! ## Lines written and lines read -/

theorem lines_cons (e : List Char × List Char) (l : List (List Char × List Char)) :
    lines (e :: l) = e.1 ++ '=' :: e.2 ++ '\n' :: lines l := by
  simp [lines]

theorem lines_terminated (l : List (List Char × List Char)) : Terminated cr (lines l) := by
  induction l with
  | nil => exact fun c h => by cases h
  | cons e l ih =>
    intro c hc
    rw [lines_cons, List.getLast?_append, List.getLast?_cons] at hc
    cases hlast : (lines l).getLast? with
    | none =>
      rw [hlast] at hc
      cases hc
      simp [isBreak]
    | some d =>
      rw [hlast] at hc
      cases hc
      exact ih _ hlast

def Name (name : List Char) : Prop := name ≠ [] ∧ ∀ c ∈ name, isNameChar c = true

theorem breaks_lines {l : List (List Char × List Char)} (hl : ∀ e ∈ l, Name e.1) :
    breaks cr (lines l) = (l.map fun e => breaks cr e.2 + 1).sum := by
  induction l with
  | nil => rfl
  | cons e l ih =>
    obtain ⟨he, hl⟩ := List.forall_mem_cons.mp hl
    have hzero : breaks cr e.1 = 0 := breaks_eq_zero fun c hc => isBreak_of_nameChar (he.2 c hc)
    have heq : isBreak cr '=' = false := by simp [isBreak]
    have hbreak : isBreak cr '\n' = true := by simp [isBreak]
    rw [lines_cons, breaks_append, breaks_append, breaks_cons, breaks_cons, hzero, heq, hbreak, ih hl, List.map_cons,
      List.sum_cons]
    simp only [Bool.false_eq_true, if_false, if_true]
    omega

theorem takeWhile_name {name : List Char} (h : Name name) (text : List Char) :
    (name ++ '=' :: text).takeWhile isNameChar = name ∧ (name ++ '=' :: text).dropWhile isNameChar = '=' :: text := by
  have heq : isNameChar '=' = false := by decide
  rw [List.takeWhile_append_of_pos h.2, List.dropWhile_append_of_pos h.2]
  simp [heq]

theorem readAssignment_name {name : List Char} (h : Name name) (text : List Char) :
    readAssignment cr (name ++ '=' :: text) = (readValue cr text).map fun r => ((name, r.1), r.2) := by
  obtain ⟨htake, hdrop⟩ := takeWhile_name h text
  rw [readAssignment, htake, hdrop]
  simp only [if_neg h.1]

theorem parseLines_line {name : List Char} (h : Name name) (fuel : Nat) (text : List Char) :
    parseLines cr (fuel + 1) (name ++ '=' :: text) =
      (readValue cr text).bind fun r => (parseLines cr fuel r.2).map fun l => (name, r.1) :: l := by
  obtain ⟨c, name, rfl⟩ := List.exists_cons_of_ne_nil h.1
  have hc : isBreak cr c = false := isBreak_of_nameChar (h.2 c List.mem_cons_self)
  rw [List.cons_append, parseLines, if_neg (by simp [hc]), ← List.cons_append, readAssignment_name h]
  cases readValue cr text <;> rfl

theorem parseLines_lines {l : List (List Char × List Char)} {values : List (List Char)}
    (hl : List.Forall₂ (fun e value => Name e.1 ∧ ∀ rest, readValue cr (e.2 ++ '\n' :: rest) = some (value, rest)) l values)
    (fuel : Nat) (hfuel : l.length ≤ fuel) :
    parseLines cr fuel (lines l) = some (List.zipWith (fun e value => (e.1, value)) l values) := by
  induction hl generalizing fuel with
  | nil => cases fuel <;> rfl
  | @cons e value l values he _ ih =>
    obtain ⟨fuel, rfl⟩ : ∃ k, fuel = k + 1 := ⟨fuel - 1, by simp at hfuel; omega⟩
    have hrest := ih fuel (by simpa using hfuel)
    have happ : lines (e :: l) = e.1 ++ '=' :: (e.2 ++ '\n' :: lines l) := by rw [lines_cons]; simp
    rw [happ, parseLines_line he.1, he.2]
    simp only [Option.bind_some, hrest, Option.map_some, List.zipWith_cons_cons]

theorem length_le_lines (l : List (List Char × List Char)) : l.length ≤ (lines l).length := by
  induction l with
  | nil => exact Nat.le_refl _
  | cons e l ih =>
    rw [lines_cons, List.length_append, List.length_cons, List.length_cons]
    omega

/-- Texts that go on with a line break after as many breaks are the same up to there. -/
theorem eq_of_breaks {raw raw' tail tail' : List Char} {c c' : Char} (h : raw ++ c :: tail = raw' ++ c' :: tail')
    (hc : isBreak cr c = true) (hc' : isBreak cr c' = true) (hb : breaks cr raw = breaks cr raw') :
    raw = raw' ∧ tail = tail' := by
  have hempty : ∀ {x y a b : List Char} {d d' : Char}, isBreak cr d = true → d :: a = y ++ d' :: b → breaks cr x = breaks cr (x ++ y) →
      y = [] := by
    intro x y a b d d' hd he hxy
    cases y with
    | nil => rfl
    | cons e y =>
      obtain rfl : d = e := (List.cons.inj he).1
      rw [breaks_append, breaks_cons, hd, if_pos rfl] at hxy
      omega
  rcases List.append_eq_append_iff.mp h with ⟨y, rfl, he⟩ | ⟨y, rfl, he⟩
  · obtain rfl := hempty hc he hb
    exact ⟨(List.append_nil _).symm, (List.cons.inj he).2⟩
  · obtain rfl := hempty hc' he hb.symm
    exact ⟨List.append_nil _, (List.cons.inj he).2.symm⟩

theorem sum_le_of_forall₂ {α β : Type} {f : α → Nat} {g : β → Nat} {l : List α} {l' : List β}
    (h : List.Forall₂ (fun a b => f a ≤ g b) l l') : (l.map fun a => f a + 1).sum ≤ (l'.map fun b => g b + 1).sum := by
  induction h with
  | nil => exact Nat.le_refl _
  | cons h _ ih =>
    rw [List.map_cons, List.map_cons, List.sum_cons, List.sum_cons]
    exact Nat.add_le_add (Nat.add_le_add_right h 1) ih

/-- Where every value read has at least the line breaks that were written for it, what is read for a line is what
was written for it. -/
theorem stands_of_parseLines {l : List (List Char × List Char)} {assignments : List Assignment} (fuel : Nat)
    (h : parseLines cr fuel (lines l) = some assignments) (hname : ∀ e ∈ l, Name e.1)
    (hb : List.Forall₂ (fun e a => breaks cr e.2 ≤ breaks cr a.2) l assignments) :
    List.Forall₂ (fun e a => a.1 = e.1 ∧ Stands cr e.2 a.2) l assignments := by
  induction hb generalizing fuel with
  | nil => exact .nil
  | @cons e a l assignments he hb ih =>
    obtain ⟨hn, hname⟩ := List.forall_mem_cons.mp hname
    have happ : lines (e :: l) = e.1 ++ '=' :: (e.2 ++ '\n' :: lines l) := by rw [lines_cons]; simp
    cases fuel with
    | zero =>
      obtain ⟨c, name, hc⟩ := List.exists_cons_of_ne_nil hn.1
      rw [happ, hc] at h
      cases h
    | succ fuel =>
      have hbreak : isBreak cr '\n' = true := by simp [isBreak]
      have hterminated : Terminated cr (lines (e :: l)) := lines_terminated (e :: l)
      rw [happ] at h hterminated
      rw [parseLines_line hn] at h
      obtain ⟨⟨value, rest⟩, hvalue, h⟩ := Option.bind_eq_some_iff.mp h
      obtain ⟨assignments', hrest, hcons⟩ := Option.map_eq_some_iff.mp h
      obtain ⟨rfl, rfl⟩ := List.cons.inj hcons
      have hread : readAssignment cr (e.1 ++ '=' :: (e.2 ++ '\n' :: lines l)) = some ((e.1, value), rest) := by
        rw [readAssignment_name hn, hvalue]
        rfl
      obtain ⟨raw, c, hsplit, hc, hstands, hterminated, -⟩ := readAssignment_break hterminated hread
      rw [List.append_assoc, List.append_cancel_left_eq, List.cons_append, List.cons.injEq] at hsplit
      have hsplit := hsplit.2
      -- the line breaks of the rest are at least those of the lines that follow, so none is left over
      have htotal := congrArg (breaks cr) hsplit
      rw [breaks_append, breaks_append, breaks_cons, breaks_cons, hbreak, hc, if_pos rfl] at htotal
      have hle : breaks cr (lines l) ≤ (assignments'.map fun a => breaks cr a.2 + 1).sum := by
        rw [breaks_lines hname]
        exact sum_le_of_forall₂ hb
      have hrestb : breaks cr (lines l) ≤ breaks cr rest := Nat.le_trans hle (parseLines_breaks fuel hterminated hrest)
      have hvalueb : breaks cr value = breaks cr raw := hstands.breaks_eq
      have he' : breaks cr e.2 ≤ breaks cr value := he
      obtain ⟨rfl, rfl⟩ := eq_of_breaks hsplit hbreak hc (by omega)
      exact .cons ⟨rfl, hstands⟩ (ih fuel hrest hname)

end DotEnv
