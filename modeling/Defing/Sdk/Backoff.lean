import Mathlib.Algebra.Group.Nat.Defs
import Defing.Sdk.Watch

/-!
# Waiting before a reconnect

What each watch loop waits, in nanoseconds, between the end of a connection
and the next one. A loop keeps its number of attempts for as long as it runs,
and some ends go round the wait.
-/

namespace Defing

/-- How a connection ends: it is not made, it breaks, or the server ends the stream. -/
inductive WatchEnd
  | refused | broken | closed
  deriving DecidableEq, Repr

def millisecond : Int := 1000000

def maxWait : Int := 15000 * millisecond

def goMillis (attempt : Nat) : BitVec 64 :=
  let delay := 1000#64 * (1#64 <<< attempt)
  if delay.slt 15000#64 then delay else 15000#64

def goDelay (attempt : Nat) : Int := (goMillis attempt * 1000000#64).toInt

def cappedDelay (base attempt : Nat) : Int := (min (base * 2 ^ attempt) 15000 : Nat) * millisecond

/-- A loop by its first number of attempts and by what an end makes of it: the wait (0 where the loop passes none) and the
next number. -/
structure ReconnectLoop where
  first : Nat
  next : Nat → WatchEnd → Int × Nat

def goHttpReconnect : ReconnectLoop where
  first := 1
  next attempt _ := (goDelay attempt, attempt + 1)

def goGrpcReconnect : ReconnectLoop where
  first := 0
  next attempt
    | .closed => (0, attempt)
    | _ => (1000 * millisecond, attempt)

def backoffBaseMs : Nat := 200

def pythonHttpReconnect : ReconnectLoop where
  first := 1
  next attempt _ := (cappedDelay backoffBaseMs attempt, attempt + 1)

/-- `_watch_grpc`, which sets the number back before each connection. -/
def pythonGrpcReconnect : ReconnectLoop where
  first := 0
  next attempt
    | .closed => (0, attempt)
    | _ => (cappedDelay backoffBaseMs (attempt + 1), 0)

def tsHttpReconnect : ReconnectLoop where
  first := 0
  next attempt _ := (cappedDelay 1000 attempt, attempt + 1)

def tsGrpcReconnect : ReconnectLoop where
  first := 0
  next attempt _ := (1000 * millisecond, attempt)

def Sdk.reconnect : Sdk → ReconnectLoop
  | goHttp => goHttpReconnect
  | goGrpc => goGrpcReconnect
  | pythonHttp => pythonHttpReconnect
  | pythonGrpc => pythonGrpcReconnect
  | tsHttp => tsHttpReconnect
  | tsGrpc => tsGrpcReconnect

def ReconnectLoop.waitsFrom (L : ReconnectLoop) : Nat → List WatchEnd → List Int
  | _, [] => []
  | attempt, e :: ends => (L.next attempt e).1 :: L.waitsFrom (L.next attempt e).2 ends

def ReconnectLoop.waits (L : ReconnectLoop) (ends : List WatchEnd) : List Int := L.waitsFrom L.first ends

def Sdk.Waits : Sdk → List WatchEnd → Prop
  | goHttp, ends => ends.length ≤ 53
  | goGrpc, ends | pythonGrpc, ends => .closed ∉ ends
  | pythonHttp, _ | tsHttp, _ | tsGrpc, _ => True

/-! ## The delays -/

def InRange (w : Int) : Prop := 0 < w ∧ w ≤ maxWait

instance (w : Int) : Decidable (InRange w) := inferInstanceAs (Decidable (_ ∧ _))

theorem cappedDelay_inRange {base : Nat} (h : 0 < base) (attempt : Nat) : InRange (cappedDelay base attempt) := by
  have : 0 < base * 2 ^ attempt := Nat.mul_pos h (Nat.two_pow_pos _)
  unfold InRange cappedDelay maxWait millisecond
  omega

theorem cappedDelay_mono (base : Nat) {n m : Nat} (h : n ≤ m) : cappedDelay base n ≤ cappedDelay base m := by
  have : base * 2 ^ n ≤ base * 2 ^ m := Nat.mul_le_mul_left _ (Nat.pow_le_pow_right (by omega) h)
  unfold cappedDelay millisecond
  omega

theorem goDelay_eq : ∀ attempt ≤ 53, goDelay attempt = cappedDelay 1000 attempt := by decide

/-- From the 54th attempt on the product has left the 64 bits, the 59th apart. -/
theorem goDelay_overflow : ∀ attempt < 61, 54 ≤ attempt → attempt ≠ 59 → goDelay attempt ≤ 0 := by decide

theorem goMillis_zero {attempt : Nat} (h : 61 ≤ attempt) : goMillis attempt = 0#64 := by
  have hz : 1000#64 * (1#64 <<< attempt) = 0#64 := by
    apply BitVec.eq_of_toNat_eq
    obtain ⟨k, rfl⟩ := Nat.exists_eq_add_of_le h
    have : 1000 * 2 ^ (61 + k) = 2 ^ 64 * (125 * 2 ^ k) := by rw [Nat.pow_add]; omega
    simp [BitVec.toNat_mul, BitVec.toNat_shiftLeft, Nat.shiftLeft_eq, this]
  unfold goMillis
  rw [hz]
  decide

theorem goDelay_zero {attempt : Nat} (h : 60 ≤ attempt) : goDelay attempt = 0 := by
  by_cases h0 : attempt = 60
  · subst h0; decide
  · unfold goDelay
    rw [goMillis_zero (by omega)]
    decide

theorem goDelay_inRange_iff (attempt : Nat) : InRange (goDelay attempt) ↔ attempt ≤ 53 ∨ attempt = 59 := by
  by_cases h : attempt ≤ 53
  · simpa [goDelay_eq _ h, h] using cappedDelay_inRange (by omega) attempt
  · by_cases h60 : 60 ≤ attempt
    · rw [goDelay_zero h60]
      simp [InRange]
      omega
    · by_cases h59 : attempt = 59
      · subst h59; decide
      · have := goDelay_overflow attempt (by omega) (by omega) h59
        simp only [InRange, h, h59, or_self, iff_false]
        omega

/-! ## The waits of a run -/

section Runs

variable {L : ReconnectLoop}

theorem waitsFrom_counting {delay : Nat → Int} (h : ∀ n e, L.next n e = (delay n, n + 1)) (attempt : Nat)
    (ends : List WatchEnd) : L.waitsFrom attempt ends = (List.range' attempt ends.length).map delay := by
  induction ends generalizing attempt with
  | nil => rfl
  | cons e ends ih => simp [ReconnectLoop.waitsFrom, h, ih, List.range'_succ]

/-- A loop that waits the same again and again, unless the server ends the stream. -/
theorem waitsFrom_resetting {n : Nat} {delay : Int} (h : ∀ e, L.next n e = (if e = .closed then 0 else delay, n))
    (ends : List WatchEnd) : L.waitsFrom n ends = ends.map fun e => if e = .closed then 0 else delay := by
  induction ends with
  | nil => rfl
  | cons e ends ih => simp [ReconnectLoop.waitsFrom, h, ih]

theorem waitsFrom_steady {n : Nat} {delay : Int} (h : ∀ e, L.next n e = (delay, n)) (ends : List WatchEnd) :
    L.waitsFrom n ends = ends.map fun _ => delay := by
  induction ends with
  | nil => rfl
  | cons e ends ih => simp [ReconnectLoop.waitsFrom, h, ih]

theorem pairwise_counting {delay : Nat → Int} {attempt n : Nat}
    (h : ∀ a b, a ≤ b → b < attempt + n → delay a ≤ delay b) :
    ((List.range' attempt n).map delay).Pairwise (· ≤ ·) := by
  rw [List.pairwise_map]
  refine (List.pairwise_lt_range' 1 (by omega)).imp_of_mem ?_
  intro a b _ hb hab
  exact h a b (Nat.le_of_lt hab) (by simp at hb; omega)

theorem pairwise_constant (ends : List WatchEnd) (delay : Int) : (ends.map fun _ => delay).Pairwise (· ≤ ·) := by
  rw [List.pairwise_map]
  exact List.pairwise_of_forall fun _ _ => Int.le_refl _

end Runs

theorem goHttp_waits (ends : List WatchEnd) :
    goHttpReconnect.waits ends = (List.range' 1 ends.length).map goDelay := waitsFrom_counting (fun _ _ => rfl) 1 ends

theorem pythonHttp_waits (ends : List WatchEnd) :
    pythonHttpReconnect.waits ends = (List.range' 1 ends.length).map (cappedDelay backoffBaseMs) :=
  waitsFrom_counting (fun _ _ => rfl) 1 ends

theorem tsHttp_waits (ends : List WatchEnd) :
    tsHttpReconnect.waits ends = (List.range' 0 ends.length).map (cappedDelay 1000) :=
  waitsFrom_counting (fun _ _ => rfl) 0 ends

theorem goGrpc_waits (ends : List WatchEnd) :
    goGrpcReconnect.waits ends = ends.map fun e => if e = .closed then 0 else 1000 * millisecond :=
  waitsFrom_resetting (fun e => by cases e <;> rfl) ends

theorem pythonGrpc_waits (ends : List WatchEnd) :
    pythonGrpcReconnect.waits ends = ends.map fun e => if e = .closed then 0 else cappedDelay backoffBaseMs 1 :=
  waitsFrom_resetting (fun e => by cases e <;> rfl) ends

theorem tsGrpc_waits (ends : List WatchEnd) : tsGrpcReconnect.waits ends = ends.map fun _ => 1000 * millisecond :=
  waitsFrom_steady (fun _ => rfl) ends

theorem resetting_inRange {delay : Int} (h : InRange delay) (ends : List WatchEnd) :
    (∀ w ∈ ends.map fun e => if e = .closed then 0 else delay, InRange w) ↔ .closed ∉ ends := by
  rw [List.forall_mem_map]
  constructor
  · intro hw hc
    have := (hw _ hc).1
    simp at this
  · intro hc e he
    have : e ≠ .closed := fun hn => hc (hn ▸ he)
    rwa [if_neg this]

theorem resetting_pairwise {delay : Int} {ends : List WatchEnd} (h : .closed ∉ ends) :
    (ends.map fun e => if e = .closed then 0 else delay).Pairwise (· ≤ ·) := by
  have : (ends.map fun e => if e = .closed then 0 else delay) = ends.map fun _ => delay :=
    List.map_congr_left fun e he => if_neg fun hn : e = .closed => h (hn ▸ he)
  rw [this]
  exact pairwise_constant ends delay

theorem goHttp_inRange (ends : List WatchEnd) : (∀ w ∈ goHttpReconnect.waits ends, InRange w) ↔ ends.length ≤ 53 := by
  rw [goHttp_waits, List.forall_mem_map]
  constructor
  · intro h
    by_contra hlt
    have := (goDelay_inRange_iff 54).mp (h 54 (by simp; omega))
    omega
  · intro h n hn
    refine (goDelay_inRange_iff n).mpr (.inl ?_)
    simp at hn
    omega

/-- Every reconnect waits, and at most 15 seconds, exactly in the runs `Sdk.Waits` tells, and there no wait is shorter
than one before it; from its 60th reconnect on the Go loop over HTTP does not wait at all. -/
theorem watch_backoff (sdk : Sdk) (ends : List WatchEnd) :
    ((∀ w ∈ sdk.reconnect.waits ends, 0 < w ∧ w ≤ maxWait) ↔ sdk.Waits ends) ∧
      (sdk.Waits ends → (sdk.reconnect.waits ends).Pairwise (· ≤ ·)) ∧
      ∀ n, 59 ≤ n → ∀ w, (Sdk.goHttp.reconnect.waits ends)[n]? = some w → w = 0 := by
  refine ⟨?_, ?_, ?_⟩
  · cases sdk with
    | goHttp => exact goHttp_inRange ends
    | goGrpc => exact goGrpc_waits ends ▸ resetting_inRange (by decide) ends
    | pythonGrpc => exact pythonGrpc_waits ends ▸ resetting_inRange (by decide) ends
    | pythonHttp =>
      simp only [Sdk.reconnect, pythonHttp_waits, List.forall_mem_map, Sdk.Waits, iff_true]
      exact fun n _ => cappedDelay_inRange (by decide) n
    | tsHttp =>
      simp only [Sdk.reconnect, tsHttp_waits, List.forall_mem_map, Sdk.Waits, iff_true]
      exact fun n _ => cappedDelay_inRange (by decide) n
    | tsGrpc =>
      simp only [Sdk.reconnect, tsGrpc_waits, List.forall_mem_map, Sdk.Waits, iff_true]
      exact fun _ _ => by decide
  · intro h
    cases sdk with
    | goHttp =>
      have h : ends.length ≤ 53 := h
      rw [Sdk.reconnect, goHttp_waits]
      refine pairwise_counting fun a b hab hb => ?_
      rw [goDelay_eq a (by omega), goDelay_eq b (by omega)]
      exact cappedDelay_mono 1000 hab
    | goGrpc => exact goGrpc_waits ends ▸ resetting_pairwise h
    | pythonGrpc => exact pythonGrpc_waits ends ▸ resetting_pairwise h
    | pythonHttp => exact pythonHttp_waits ends ▸ pairwise_counting fun a b hab _ => cappedDelay_mono _ hab
    | tsHttp => exact tsHttp_waits ends ▸ pairwise_counting fun a b hab _ => cappedDelay_mono _ hab
    | tsGrpc => exact tsGrpc_waits ends ▸ pairwise_constant ends _
  · intro n hn w hw
    rw [Sdk.reconnect, goHttp_waits, List.getElem?_map, Option.map_eq_some_iff] at hw
    obtain ⟨a, ha, rfl⟩ := hw
    obtain ⟨hlt, rfl⟩ := List.getElem?_eq_some_iff.mp ha
    rw [List.getElem_range']
    exact goDelay_zero (by omega)

end Defing
