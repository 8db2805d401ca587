import Defing.Core.Access

/-!
# Address ranges of a gray rule

The address parsers of the standard library, as `str::parse` runs them: each
reader takes what it can from the front of the text.
-/

namespace Defing

inductive IpAddr
  | v4 (bits : Nat)
  | v6 (bits : Nat)
  deriving DecidableEq, Repr

def digitValue (base : Nat) (c : Char) : Option Nat :=
  let d :=
    if '0' ≤ c ∧ c ≤ '9' then c.toNat - '0'.toNat
    else if 'a' ≤ c ∧ c ≤ 'f' then c.toNat - 'a'.toNat + 10
    else if 'A' ≤ c ∧ c ≤ 'F' then c.toNat - 'A'.toNat + 10
    else base
  if d < base then some d else none

/-- A number of at most `maxDigits` digits up to `bound`; `zeros` allows leading zeros. -/
def readNumber (base maxDigits bound : Nat) (zeros : Bool) (text : List Char) : Option (Nat × List Char) :=
  let digits := text.takeWhile fun c => (digitValue base c).isSome
  let value := (digits.filterMap (digitValue base)).foldl (fun n d => n * base + d) 0
  if digits = [] ∨ maxDigits < digits.length ∨ bound < value ∨ (!zeros ∧ digits.head? = some '0' ∧ 1 < digits.length)
  then none
  else some (value, text.drop digits.length)

def readChar (c : Char) : List Char → Option (List Char)
  | d :: rest => if d = c then some rest else none
  | [] => none

def readIpv4 (text : List Char) : Option (Nat × List Char) := do
  let (a, text) ← readNumber 10 3 255 false text
  let text ← readChar '.' text
  let (b, text) ← readNumber 10 3 255 false text
  let text ← readChar '.' text
  let (c, text) ← readNumber 10 3 255 false text
  let text ← readChar '.' text
  let (d, text) ← readNumber 10 3 255 false text
  pure (((a * 256 + b) * 256 + c) * 256 + d, text)

def afterColon {α : Type} (first : Bool) (p : List Char → Option α) (text : List Char) : Option α :=
  if first then p text else (readChar ':' text).bind p

/-- At most `limit` groups of 16 bits; the flag says that an IPv4 address was read at the end. -/
def readGroups (first : Bool) : (limit : Nat) → List Char → List Nat × Bool × List Char
  | 0, text => ([], false, text)
  | limit + 1, text =>
    match if 0 < limit then afterColon first readIpv4 text else none with
    | some (v4, text) => ([v4 / 65536, v4 % 65536], true, text)
    | none =>
      match afterColon first (readNumber 16 4 65535 true) text with
      | some (group, text) =>
        let (groups, v4, text) := readGroups false limit text
        (group :: groups, v4, text)
      | none => ([], false, text)

def ofGroups (groups : List Nat) : Nat := groups.foldl (fun n g => n * 65536 + g) 0

def readIpv6 (text : List Char) : Option (Nat × List Char) := do
  let (head, v4, text) := readGroups true 8 text
  if head.length = 8 then pure (ofGroups head, text)
  else if v4 then none
  else do
    let text ← readChar ':' text
    let text ← readChar ':' text
    let (tail, _, text) := readGroups true (7 - head.length) text
    pure (ofGroups (head ++ List.replicate (8 - head.length - tail.length) 0 ++ tail), text)

def parseIpAddr (s : String) : Option IpAddr :=
  match readIpv4 s.toList with
  | some (bits, rest) => if rest = [] then some (.v4 bits) else none
  | none =>
    match readIpv6 s.toList with
    | some (bits, rest) => if rest = [] then some (.v6 bits) else none
    | none => none

/-- `str::parse` for an unsigned integer up to `bound`: digits, after a plus sign or not. -/
def parseUnsigned (bound : Nat) (s : String) : Option Nat :=
  let digits := match s.toList with
    | '+' :: rest => rest
    | text => text
  if digits ≠ [] ∧ digits.all (fun c => (digitValue 10 c).isSome) then
    let value := (digits.filterMap (digitValue 10)).foldl (fun n d => n * 10 + d) 0
    if value ≤ bound then some value else none
  else none

def splitOnceSlash (s : String) : Option (String × String) :=
  let addr := s.toList.takeWhile (· ≠ '/')
  match s.toList.drop addr.length with
  | _ :: rest => some (String.ofList addr, String.ofList rest)
  | [] => none

def IpAddr.maxPrefix : IpAddr → Nat
  | v4 _ => 32
  | v6 _ => 128

def validCidr (cidr : String) : Bool :=
  match splitOnceSlash cidr with
  | none => false
  | some (addrS, bitsS) =>
    match parseIpAddr addrS, parseUnsigned (2 ^ 32 - 1) bitsS with
    | some addr, some bits => bits ≤ addr.maxPrefix
    | _, _ => false

/-- At least one criterion, no empty label, every range well formed, a percentage up to 100. -/
def validateGrayRule (rule : GrayRule) : M Unit := do
  ensure (¬ (rule.matchLabels = [] ∧ rule.ipCidrs = [] ∧ rule.percentage = none)) <|
    Error.validation "gray rule must have at least one criterion (labels / ip / percentage)"
  rule.matchLabels.forM fun sel =>
    ensure (sel.key ≠ "" ∧ sel.value ≠ "") (Error.validation "gray rule label key/value must be non-empty")
  rule.ipCidrs.forM fun cidr =>
    ensure (validCidr cidr) (Error.validation s!"invalid CIDR: {debugStr cidr}")
  match rule.percentage with
  | some pct => ensure (pct ≤ 100) (Error.validation s!"gray percentage {pct} > 100")
  | none => pure ()

example : parseIpAddr "::ffff:10.0.0.1" = some (.v6 0xffff0a000001) := by decide +kernel
example : validCidr "10.0.0.0/33" = false := by decide +kernel

end Defing
