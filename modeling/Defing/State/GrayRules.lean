import Mathlib.Data.Nat.Bitwise
import Defing.Lib.Result
import Defing.State.Gray

/-!
# Whom a gray rule sends to the gray release

A rule is checked once, when it is published, and matched against every client
after that, and both read the ranges of addresses from their texts. `InNetwork`
is what a range says of an address, bit by bit.
-/

namespace Defing

open KV (Prog)

variable {id : ProjectId} {b : BranchName} {t t' : Store} {rule rule' : GrayRule} {ctx : ClientCtx}

/-! ## Masks -/

section
variable {width bits : Nat}

/-- A shift to the left in `width` bits, which may not be by as many. -/
def checkedShl (width x n : Nat) : Option Nat := if n < width then some ((x <<< n) % 2 ^ width) else none

def checkedMask (width bits : Nat) : Option Nat :=
  if bits = 0 then some 0 else if bits ≤ width then checkedShl width (2 ^ width - 1) (width - bits) else none

theorem checkedMask_eq (h : bits ≤ width) : checkedMask width bits = some (netMask width bits) := by
  unfold checkedMask netMask
  by_cases h0 : bits = 0
  · rw [if_pos h0, if_pos h0]
  · rw [if_neg h0, if_neg h0, if_pos h, checkedShl, if_pos (by omega)]

theorem testBit_netMask (h : bits ≤ width) (i : Nat) :
    (netMask width bits).testBit i = decide (width - bits ≤ i ∧ i < width) := by
  unfold netMask
  by_cases h0 : bits = 0
  · rw [if_pos h0, Nat.zero_testBit, h0]
    exact (decide_eq_false (by omega)).symm
  · rw [if_neg h0, Nat.testBit_mod_two_pow, Nat.testBit_shiftLeft, Nat.testBit_two_pow_sub_one, Bool.eq_iff_iff]
    simp only [Bool.and_eq_true, decide_eq_true_eq]
    omega

/-- Two numbers are the same under the mask if their first bits are. -/
theorem masked_eq_iff (h : bits ≤ width) {x y : Nat} :
    x &&& netMask width bits = y &&& netMask width bits ↔
      ∀ i < bits, x.testBit (width - 1 - i) = y.testBit (width - 1 - i) := by
  constructor
  · intro he i hi
    have hbit := congrArg (Nat.testBit · (width - 1 - i)) he
    have hin : width - bits ≤ width - 1 - i ∧ width - 1 - i < width := by omega
    simpa only [Nat.testBit_land, testBit_netMask h, hin, and_self, decide_true, Bool.and_true] using hbit
  · intro hbits
    refine Nat.eq_of_testBit_eq fun i => ?_
    rw [Nat.testBit_land, Nat.testBit_land, testBit_netMask h]
    by_cases hi : width - bits ≤ i ∧ i < width
    · have := hbits (width - 1 - i) (by omega)
      rw [show width - 1 - (width - 1 - i) = i by omega] at this
      rw [this]
    · rw [decide_eq_false hi, Bool.and_false, Bool.and_false]

end

/-! ## Ranges of addresses -/

/-- The address and the number of bits in the text of a range. -/
def parseCidr (cidr : String) : Option (IpAddr × Nat) :=
  (splitOnceSlash cidr).bind fun parts => (parseIpAddr parts.1).bind fun addr =>
    (parseUnsigned (2 ^ 32 - 1) parts.2).map fun bits => (addr, bits)

def InNetwork (bits : Nat) : IpAddr → IpAddr → Prop
  | .v4 x, .v4 y => ∀ i < bits, x.testBit (31 - i) = y.testBit (31 - i)
  | .v6 x, .v6 y => ∀ i < bits, x.testBit (127 - i) = y.testBit (127 - i)
  | _, _ => False

theorem InNetwork.shorten {bits bits' : Nat} (h : bits' ≤ bits) {ip addr : IpAddr} (hin : InNetwork bits ip addr) :
    InNetwork bits' ip addr := by
  cases ip <;> cases addr
  · exact fun i hi => hin i (Nat.lt_of_lt_of_le hi h)
  · exact hin
  · exact hin
  · exact fun i hi => hin i (Nat.lt_of_lt_of_le hi h)

theorem validCidr_iff {cidr : String} :
    validCidr cidr = true ↔ ∃ addr bits, parseCidr cidr = some (addr, bits) ∧ bits ≤ addr.maxPrefix := by
  unfold validCidr parseCidr
  cases splitOnceSlash cidr with
  | none => simp
  | some parts =>
    obtain ⟨addrS, bitsS⟩ := parts
    dsimp only [Option.bind_some]
    cases parseIpAddr addrS <;> cases parseUnsigned (2 ^ 32 - 1) bitsS <;> simp

theorem ipInCidr_iff {ip : IpAddr} {cidr : String} :
    ipInCidr ip cidr = true ↔
      ∃ addr bits, parseCidr cidr = some (addr, bits) ∧ bits ≤ addr.maxPrefix ∧ InNetwork bits ip addr := by
  unfold ipInCidr parseCidr
  cases splitOnceSlash cidr with
  | none => simp
  | some parts =>
    obtain ⟨addrS, bitsS⟩ := parts
    dsimp only [Option.bind_some]
    cases parseIpAddr addrS with
    | none => simp
    | some addr =>
      cases parseUnsigned (2 ^ 32 - 1) bitsS with
      | none => simp
      | some bits =>
        have hparsed : (bits ≤ addr.maxPrefix ∧ InNetwork bits ip addr) ↔
            ∃ addr' bits', some (addr, bits) = some (addr', bits') ∧ bits' ≤ addr'.maxPrefix ∧ InNetwork bits' ip addr' :=
          ⟨fun h => ⟨addr, bits, rfl, h⟩, fun ⟨_, _, e, h⟩ => by cases e; exact h⟩
        refine Iff.trans ?_ hparsed
        cases ip <;> cases addr
        · exact decide_eq_true_iff.trans (and_congr_right fun h => masked_eq_iff h)
        · exact iff_of_false Bool.false_ne_true fun h => h.2
        · exact iff_of_false Bool.false_ne_true fun h => h.2
        · exact decide_eq_true_iff.trans (and_congr_right fun h => masked_eq_iff h)

/-! ## Rules -/

/-- A client that a rule matches, by a label, by its address, or by the bucket of its identity. -/
def Selects (rule : GrayRule) (ctx : ClientCtx) : Prop :=
  (∃ sel ∈ rule.matchLabels, ctx.labels[sel.key]? = some sel.value) ∨
    (∃ ip, ctx.ip = some ip ∧ ∃ cidr ∈ rule.ipCidrs, ∃ addr bits, parseCidr cidr = some (addr, bits) ∧ InNetwork bits ip addr) ∨
    ∃ pct, rule.percentage = some pct ∧ ctx.instanceId ≠ "" ∧ (fnv1aHash ctx.instanceId).toNat % 100 < pct

theorem forM_ensure_eval {α : Type} {c : α → Prop} [DecidablePred c] {e : α → Error} {l : List α} :
    (l.forM fun a => ensure (c a) (e a)).eval t = .ok () ↔ ∀ a ∈ l, c a := by
  induction l with
  | nil => exact iff_of_true rfl fun _ h => absurd h List.not_mem_nil
  | cons a l ih =>
    show (ensure (c a) (e a) >>= fun _ => l.forM fun a => ensure (c a) (e a)).eval t = _ ↔ _
    rw [(ensure_readOnly _ _).eval_bind, List.forall_mem_cons, ← ih]
    by_cases h : c a
    · rw [ensure, if_pos h]
      exact ⟨fun he => ⟨h, he⟩, fun he => he.2⟩
    · rw [ensure, if_neg h]
      exact ⟨fun he => (by cases he), fun he => absurd he.1 h⟩

theorem validateGrayRule_cidrs (h : (validateGrayRule rule).eval t = .ok ()) : ∀ cidr ∈ rule.ipCidrs, validCidr cidr = true := by
  unfold validateGrayRule at h
  rw [(ensure_readOnly _ _).eval_bind] at h
  obtain ⟨_, -, h⟩ := Result.bind_ok.mp h
  rw [(forM_readOnly (fun _ => ensure_readOnly _ _) _).eval_bind] at h
  obtain ⟨_, -, h⟩ := Result.bind_ok.mp h
  rw [(forM_readOnly (fun _ => ensure_readOnly _ _) _).eval_bind] at h
  obtain ⟨_, hcidrs, -⟩ := Result.bind_ok.mp h
  exact forM_ensure_eval.mp hcidrs

theorem ruleMatches_iff (h : ∀ cidr ∈ rule.ipCidrs, validCidr cidr = true) : ruleMatches rule ctx = true ↔ Selects rule ctx := by
  unfold ruleMatches Selects
  rw [Bool.or_eq_true, Bool.or_eq_true, or_assoc]
  refine or_congr ?_ (or_congr ?_ ?_)
  · simp only [List.any_eq_true, decide_eq_true_eq]
  · cases ctx.ip with
    | none => simp
    | some ip =>
      simp only [List.any_eq_true, ipInCidr_iff, Option.some.injEq, exists_eq_left']
      refine exists_congr fun cidr => and_congr_right fun hmem => ?_
      obtain ⟨addr, bits, hparse, hle⟩ := validCidr_iff.mp (h cidr hmem)
      simp only [hparse, Option.some.injEq, Prod.mk.injEq]
      constructor
      · rintro ⟨addr', bits', e, -, hin⟩
        exact ⟨addr', bits', e, hin⟩
      · rintro ⟨addr', bits', ⟨rfl, rfl⟩, hin⟩
        exact ⟨addr, bits, ⟨rfl, rfl⟩, hle, hin⟩
  · cases rule.percentage with
    | none => simp
    | some pct => simp only [decide_eq_true_eq, Option.some.injEq, exists_eq_left']

/-- More selectors, more ranges or ranges of fewer bits, a greater percentage. -/
structure Widens (rule rule' : GrayRule) : Prop where
  labels : ∀ sel ∈ rule.matchLabels, sel ∈ rule'.matchLabels
  cidrs : ∀ cidr ∈ rule.ipCidrs, ∃ cidr' ∈ rule'.ipCidrs, ∀ addr bits, parseCidr cidr = some (addr, bits) →
    ∃ bits' ≤ bits, parseCidr cidr' = some (addr, bits')
  percentage : ∀ pct, rule.percentage = some pct → ∃ pct', pct ≤ pct' ∧ rule'.percentage = some pct'

theorem Widens.selects (h : Widens rule rule') (hsel : Selects rule ctx) : Selects rule' ctx := by
  rcases hsel with ⟨sel, hmem, hlabel⟩ | ⟨ip, hip, cidr, hmem, addr, bits, hparse, hin⟩ | ⟨pct, hpct, hid, hlt⟩
  · exact .inl ⟨sel, h.labels sel hmem, hlabel⟩
  · obtain ⟨cidr', hmem', hshorter⟩ := h.cidrs cidr hmem
    obtain ⟨bits', hle, hparse'⟩ := hshorter addr bits hparse
    exact .inr (.inl ⟨ip, hip, cidr', hmem', addr, bits', hparse', hin.shorten hle⟩)
  · obtain ⟨pct', hle, hpct'⟩ := h.percentage pct hpct
    exact .inr (.inr ⟨pct', hpct', hid, Nat.lt_of_lt_of_le hlt hle⟩)

/-! ## Clients -/

section
variable [SerdeJson]

theorem resolveVersion_gray_iff {st : BranchState} (hst : (configState id b).eval t = .ok st) {seq : Nat} :
    (resolveVersion id b ctx).eval t = .ok (.gray seq) ↔ seq = st.graySeq ∧ st.graySeq ≠ 0 ∧ ctx.instanceId ≠ "" ∧
      ∃ rule, st.grayRule = some rule ∧ ruleMatches rule ctx = true := by
  rw [resolveVersion, (configState_readOnly _ _).eval_bind_ok hst]
  cases hrule : st.grayRule with
  | none =>
    refine iff_of_false (fun h => by cases h) fun h => ?_
    obtain ⟨-, -, -, rule, hrule', -⟩ := h
    cases hrule'
  | some rule =>
    dsimp only
    by_cases hout : st.graySeq = 0 ∨ ctx.instanceId = ""
    · rw [if_pos hout]
      exact iff_of_false (fun h => by cases h) fun h => hout.elim h.2.1 h.2.2.1
    · rw [if_neg hout]
      rw [not_or] at hout
      by_cases hmatch : ruleMatches rule ctx = true
      · rw [if_pos hmatch]
        constructor
        · intro h
          cases h
          exact ⟨rfl, hout.1, hout.2, rule, rfl, hmatch⟩
        · rintro ⟨rfl, -⟩
          rfl
      · rw [if_neg hmatch]
        refine iff_of_false (fun h => by cases h) ?_
        rintro ⟨-, -, -, rule', hrule', hmatch'⟩
        exact hmatch (Option.some.inj hrule' ▸ hmatch')

theorem configState_of_gray {seq : Nat} (h : (resolveVersion id b ctx).eval t = .ok (.gray seq)) :
    ∃ st, (configState id b).eval t = .ok st := by
  rw [resolveVersion, (configState_readOnly _ _).eval_bind] at h
  obtain ⟨st, hst, -⟩ := Result.bind_ok.mp h
  exact ⟨st, hst⟩

/-- A rule that is accepted matches the clients it selects, with no shift past the width of an address; a client
without an identity is not sent to a gray release; and a wider rule sends all clients there that the narrower one
does. -/
theorem gray_rule_semantics (h : (validateGrayRule rule).eval t = .ok ()) :
    (∀ ctx, ruleMatches rule ctx = true ↔ Selects rule ctx) ∧
      (∀ cidr ∈ rule.ipCidrs, ∃ addr bits, parseCidr cidr = some (addr, bits) ∧ bits ≤ addr.maxPrefix ∧
        checkedMask addr.maxPrefix bits = some (netMask addr.maxPrefix bits)) ∧
      (∀ t id b ctx seq, ctx.instanceId = "" → (resolveVersion id b ctx).eval t ≠ .ok (.gray seq)) ∧
      ∀ rule', Widens rule rule' → (validateGrayRule rule').eval t = .ok () →
        (∀ ctx, ruleMatches rule ctx = true → ruleMatches rule' ctx = true) ∧
        ∀ t₁ t₂ id b st st', (configState id b).eval t₁ = .ok st → st.grayRule = some rule →
          (configState id b).eval t₂ = .ok st' → st'.grayRule = some rule' → st'.graySeq ≠ 0 → ∀ ctx,
            (resolveVersion id b ctx).eval t₁ = .ok (.gray st.graySeq) →
              (resolveVersion id b ctx).eval t₂ = .ok (.gray st'.graySeq) := by
  have hmatches : ∀ ctx, ruleMatches rule ctx = true ↔ Selects rule ctx :=
    fun ctx => ruleMatches_iff (validateGrayRule_cidrs h)
  refine ⟨hmatches, fun cidr hmem => ?_, fun t id b ctx seq hid hgray => ?_, fun rule' hwide h' => ?_⟩
  · obtain ⟨addr, bits, hparse, hle⟩ := validCidr_iff.mp (validateGrayRule_cidrs h cidr hmem)
    exact ⟨addr, bits, hparse, hle, checkedMask_eq hle⟩
  · obtain ⟨st, hst⟩ := configState_of_gray hgray
    exact ((resolveVersion_gray_iff hst).mp hgray).2.2.1 hid
  · have hwider : ∀ ctx, ruleMatches rule ctx = true → ruleMatches rule' ctx = true := fun ctx hm =>
      (ruleMatches_iff (validateGrayRule_cidrs h')).mpr (hwide.selects ((hmatches ctx).mp hm))
    refine ⟨hwider, fun t₁ t₂ id b st st' hst hrule hst' hrule' hseq ctx hgray => ?_⟩
    obtain ⟨-, -, hid, rule₁, hrule₁, hmatch⟩ := (resolveVersion_gray_iff hst).mp hgray
    obtain rfl := Option.some.inj (hrule.symm.trans hrule₁)
    exact (resolveVersion_gray_iff hst').mpr ⟨rfl, hseq, hid, rule', hrule', hwider ctx hmatch⟩

end

section
attribute [local instance] sampleJson

def twoRanges : GrayRule := { ipCidrs := ["10.64.0.0/10", "::/0"], percentage := some 5 }

theorem gray_rule_semantics_sample :
    ruleMatches twoRanges { instanceId := "", ip := some (.v4 0x0a7fffff) } = true ∧
      ¬ Selects twoRanges { instanceId := "", ip := some (.v4 0x0a800000) } := by
  have hvalid : (validateGrayRule twoRanges).eval ∅ = .ok () := by decide +kernel
  have hmatches := (gray_rule_semantics hvalid).1
  refine ⟨by decide +kernel, fun h => ?_⟩
  have := (hmatches _).mpr h
  revert this
  decide +kernel

end

end Defing
