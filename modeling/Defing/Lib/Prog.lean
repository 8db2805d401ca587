import Mathlib.Data.List.Basic
import Mathlib.Data.List.Induction

/-!
# Programs over a key-value store

`Prog` is the syntax of computations that read and write a store through an
interface: reads that see buffered writes (`get`, `scan`), buffered writes
(`put`, `del`), and operations that go to the store at once (`storeGet`,
`storePut`, `storeDel`). Every operation that reaches the store hands its
continuation a result, since a real store may fail. `note` records a history
variable that no program reads.

Two handlers are given: `run` buffers the writes of a program until `flush`,
`exec` writes through. `run_eq_exec` says when the two agree.
-/

namespace KV

open Std (ExtTreeMap TransOrd LawfulEqOrd)

/-! ## Finite maps -/

section
variable {K V : Type} [Ord K] [TransOrd K] [LawfulEqOrd K]

theorem getElem?_filter (t : ExtTreeMap K V) (f : K → Bool) (a : K) :
    (t.filter fun k _ => f k)[a]? = if f a then t[a]? else none := by
  rw [ExtTreeMap.getElem?_filter']
  cases t[a]? <;> cases f a <;> rfl

variable [DecidableEq K]

theorem getElem?_insert (t : ExtTreeMap K V) (k a : K) (v : V) :
    (t.insert k v)[a]? = if k = a then some v else t[a]? := by
  rw [ExtTreeMap.getElem?_insert]; simp only [Std.compare_eq_iff_eq]

theorem getElem?_erase (t : ExtTreeMap K V) (k a : K) :
    (t.erase k)[a]? = if k = a then none else t[a]? := by
  rw [ExtTreeMap.getElem?_erase]; simp only [Std.compare_eq_iff_eq]

theorem getElem?_insert_ne (t : ExtTreeMap K V) {k a : K} (h : k ≠ a) (v : V) :
    (t.insert k v)[a]? = t[a]? := by
  rw [getElem?_insert, if_neg h]

theorem getElem?_erase_ne (t : ExtTreeMap K V) {k a : K} (h : k ≠ a) :
    (t.erase k)[a]? = t[a]? := by
  rw [getElem?_erase, if_neg h]

theorem insert_of_getElem? {t : ExtTreeMap K V} {k : K} {v : V} (h : t[k]? = some v) :
    t.insert k v = t := by
  apply ExtTreeMap.ext_getElem?
  intro a
  rw [getElem?_insert]
  by_cases ha : k = a
  · rw [if_pos ha, ← ha, h]
  · rw [if_neg ha]

end

/-! ## Syntax -/

/-- Computations over a store with keys `K` and values `V`, failing with `E` and
recording history entries `G`. -/
inductive Prog (K V E G α : Type) : Type where
  | done (a : α)
  | fail (e : E)
  | get (k : K) (next : Except E (Option V) → Prog K V E G α)
  | scan (hits : K → Bool) (next : Except E (List (K × V)) → Prog K V E G α)
  | put (k : K) (v : V) (next : Prog K V E G α)
  | del (k : K) (next : Prog K V E G α)
  | storeGet (k : K) (next : Except E (Option V) → Prog K V E G α)
  | storePut (k : K) (v : V) (next : Except E Unit → Prog K V E G α)
  | storeDel (k : K) (next : Except E Unit → Prog K V E G α)
  | note (g : G) (next : Prog K V E G α)

namespace Prog

variable {K V E G α β γ : Type}

def bind : Prog K V E G α → (α → Prog K V E G β) → Prog K V E G β
  | done a, f => f a
  | fail e, _ => fail e
  | get k next, f => get k fun r => (next r).bind f
  | scan hits next, f => scan hits fun r => (next r).bind f
  | put k v next, f => put k v (next.bind f)
  | del k next, f => del k (next.bind f)
  | storeGet k next, f => storeGet k fun r => (next r).bind f
  | storePut k v next, f => storePut k v fun r => (next r).bind f
  | storeDel k next, f => storeDel k fun r => (next r).bind f
  | note g next, f => note g (next.bind f)

instance : Monad (Prog K V E G) where
  pure := done
  bind := bind

theorem bind_done (p : Prog K V E G α) : p.bind done = p := by
  induction p with
  | done | fail => rfl
  | put _ _ _ ih | del _ _ ih | note _ _ ih => simp only [bind, ih]
  | get _ _ ih | scan _ _ ih | storeGet _ _ ih | storePut _ _ _ ih | storeDel _ _ ih =>
    simp only [bind, ih]

theorem bind_assoc' (p : Prog K V E G α) (f : α → Prog K V E G β) (g : β → Prog K V E G γ) :
    (p.bind f).bind g = p.bind fun a => (f a).bind g := by
  induction p with
  | done | fail => rfl
  | put _ _ _ ih | del _ _ ih | note _ _ ih => simp only [bind, ih]
  | get _ _ ih | scan _ _ ih | storeGet _ _ ih | storePut _ _ _ ih | storeDel _ _ ih =>
    simp only [bind, ih]

instance : LawfulMonad (Prog K V E G) := LawfulMonad.mk' _ (fun p => bind_done p) (fun _ _ => rfl) (fun p f g => bind_assoc' p f g)

def ofExcept : Except E α → Prog K V E G α
  | .ok a => done a
  | .error e => fail e

end Prog

/-! ## The buffered handler -/

inductive Pending (K V : Type) : Type where
  | put (k : K) (v : V)
  | delete (k : K)

namespace Pending

variable {K V : Type}

def key : Pending K V → K
  | put k _ => k
  | delete k => k

end Pending

structure Buf (K V G : Type) [Ord K] where
  store : ExtTreeMap K V
  pending : List (Pending K V) := []
  notes : List G := []

structure Flat (K V G : Type) [Ord K] where
  kv : ExtTreeMap K V
  notes : List G := []

section
variable {K V E G α β : Type} [Ord K] [TransOrd K] [LawfulEqOrd K] [DecidableEq K]

def applyOp (t : ExtTreeMap K V) : Pending K V → ExtTreeMap K V
  | .put k v => t.insert k v
  | .delete k => t.erase k

def puts (ops : List (Pending K V)) : List (K × V) :=
  ops.filterMap fun | .put k v => some (k, v) | .delete _ => none

def deletes (ops : List (Pending K V)) : List K :=
  ops.filterMap fun | .put _ _ => none | .delete k => some k

def writeBatch (t : ExtTreeMap K V) (ps : List (K × V)) (ds : List K) : ExtTreeMap K V :=
  ps.foldl (fun t p => t.insert p.1 p.2) (ds.foldl (fun t k => t.erase k) t)

namespace Buf

def push (b : Buf K V G) (op : Pending K V) : Buf K V G :=
  { b with pending := b.pending ++ [op] }

/-- The last buffered write of a key decides; a key without one is read from the store. -/
def lookup (b : Buf K V G) (k : K) : Option V :=
  match b.pending.reverse.find? fun op => op.key = k with
  | some (.put _ v) => some v
  | some (.delete _) => none
  | none => b.store[k]?

def rows (b : Buf K V G) (hits : K → Bool) : List (K × V) :=
  (b.pending.foldl (fun out op => if hits op.key then applyOp out op else out)
    (b.store.filter fun k _ => hits k)).toList

def view (b : Buf K V G) : ExtTreeMap K V := b.pending.foldl applyOp b.store

def flat (b : Buf K V G) : Flat K V G := ⟨b.view, b.notes⟩

def flush (b : Buf K V G) : Buf K V G :=
  { b with store := writeBatch b.store (puts b.pending) (deletes b.pending), pending := [] }

end Buf

namespace Prog

/-- Buffered execution over a store that never fails. -/
def run : Prog K V E G α → Buf K V G → Except E α × Buf K V G
  | done a, b => (.ok a, b)
  | fail e, b => (.error e, b)
  | get k next, b => (next (.ok (b.lookup k))).run b
  | scan hits next, b => (next (.ok (b.rows hits))).run b
  | put k v next, b => next.run (b.push (.put k v))
  | del k next, b => next.run (b.push (.delete k))
  | storeGet k next, b => (next (.ok b.store[k]?)).run b
  | storePut k v next, b => (next (.ok ())).run { b with store := b.store.insert k v }
  | storeDel k next, b => (next (.ok ())).run { b with store := b.store.erase k }
  | note g next, b => next.run { b with notes := b.notes ++ [g] }

/-- Write-through execution over a store that never fails. -/
def exec : Prog K V E G α → Flat K V G → Except E α × Flat K V G
  | done a, s => (.ok a, s)
  | fail e, s => (.error e, s)
  | get k next, s => (next (.ok s.kv[k]?)).exec s
  | scan hits next, s => (next (.ok (s.kv.filter fun k _ => hits k).toList)).exec s
  | put k v next, s => next.exec { s with kv := s.kv.insert k v }
  | del k next, s => next.exec { s with kv := s.kv.erase k }
  | storeGet k next, s => (next (.ok s.kv[k]?)).exec s
  | storePut k v next, s => (next (.ok ())).exec { s with kv := s.kv.insert k v }
  | storeDel k next, s => (next (.ok ())).exec { s with kv := s.kv.erase k }
  | note g next, s => next.exec { s with notes := s.notes ++ [g] }

/-- The stores left by the operations of a buffered run that go to the store at once. -/
def trail : Prog K V E G α → Buf K V G → List (ExtTreeMap K V)
  | done _, _ => []
  | fail _, _ => []
  | get k next, b => (next (.ok (b.lookup k))).trail b
  | scan hits next, b => (next (.ok (b.rows hits))).trail b
  | put k v next, b => next.trail (b.push (.put k v))
  | del k next, b => next.trail (b.push (.delete k))
  | storeGet k next, b => (next (.ok b.store[k]?)).trail b
  | storePut k v next, b =>
    b.store.insert k v :: (next (.ok ())).trail { b with store := b.store.insert k v }
  | storeDel k next, b =>
    b.store.erase k :: (next (.ok ())).trail { b with store := b.store.erase k }
  | note g next, b => next.trail { b with notes := b.notes ++ [g] }

/-- What a program computes from a store, its effects dropped. -/
def eval (p : Prog K V E G α) (t : ExtTreeMap K V) : Except E α := (p.exec ⟨t, []⟩).1

omit [LawfulEqOrd K] [DecidableEq K] in
@[simp] theorem exec_pure (a : α) (s : Flat K V G) :
    (pure a : Prog K V E G α).exec s = (.ok a, s) := rfl

omit [LawfulEqOrd K] [DecidableEq K] in
@[simp] theorem exec_fail (e : E) (s : Flat K V G) :
    (fail e : Prog K V E G α).exec s = (.error e, s) := rfl

omit [LawfulEqOrd K] [DecidableEq K] in
theorem exec_bind (p : Prog K V E G α) (f : α → Prog K V E G β) (s : Flat K V G) :
    (p >>= f).exec s = match p.exec s with
      | (.ok a, s') => (f a).exec s'
      | (.error e, s') => (.error e, s') := by
  change (p.bind f).exec s = _
  induction p generalizing s with
  | done | fail => rfl
  | put _ _ _ ih | del _ _ ih | note _ _ ih => exact ih _
  | get _ _ ih | scan _ _ ih | storeGet _ _ ih | storePut _ _ _ ih | storeDel _ _ ih => exact ih _ _

omit [LawfulEqOrd K] in
theorem run_bind (p : Prog K V E G α) (f : α → Prog K V E G β) (b : Buf K V G) :
    (p >>= f).run b = match p.run b with
      | (.ok a, b') => (f a).run b'
      | (.error e, b') => (.error e, b') := by
  change (p.bind f).run b = _
  induction p generalizing b with
  | done | fail => rfl
  | put _ _ _ ih | del _ _ ih | note _ _ ih => exact ih _
  | get _ _ ih | scan _ _ ih | storeGet _ _ ih | storePut _ _ _ ih | storeDel _ _ ih => exact ih _ _

omit [LawfulEqOrd K] in
theorem run_bind_of_ok {p : Prog K V E G α} {b b' : Buf K V G} {a : α} (h : p.run b = (.ok a, b'))
    (f : α → Prog K V E G β) : (p >>= f).run b = (f a).run b' := by
  rw [run_bind, h]

omit [LawfulEqOrd K] [DecidableEq K] in
theorem exec_bind_ok {p : Prog K V E G α} {f : α → Prog K V E G β} {s s' : Flat K V G} {b : β} :
    (p >>= f).exec s = (.ok b, s') ↔ ∃ a s₁, p.exec s = (.ok a, s₁) ∧ (f a).exec s₁ = (.ok b, s') := by
  rw [exec_bind]
  rcases p.exec s with ⟨_ | a, s₁⟩
  · simp
  · simp

omit [LawfulEqOrd K] [DecidableEq K] in
theorem exec_bind_of_ok {p : Prog K V E G α} {s s₁ : Flat K V G} {a : α} (h : p.exec s = (.ok a, s₁))
    (f : α → Prog K V E G β) : (p >>= f).exec s = (f a).exec s₁ := by
  rw [exec_bind, h]

omit [LawfulEqOrd K] [DecidableEq K] in
theorem exec_bind_of_error {p : Prog K V E G α} {s s₁ : Flat K V G} {e : E}
    (h : p.exec s = (.error e, s₁)) (f : α → Prog K V E G β) : (p >>= f).exec s = (.error e, s₁) := by
  rw [exec_bind, h]

/-! ## Readers -/

def ReadOnly : Prog K V E G α → Prop
  | done _ => True
  | fail _ => True
  | get _ next => ∀ r, (next r).ReadOnly
  | scan _ next => ∀ r, (next r).ReadOnly
  | put _ _ _ => False
  | del _ _ => False
  | storeGet _ _ => False
  | storePut _ _ _ => False
  | storeDel _ _ => False
  | note _ _ => False

omit [Ord K] [TransOrd K] [LawfulEqOrd K] [DecidableEq K] in
theorem ReadOnly.bind {p : Prog K V E G α} {f : α → Prog K V E G β} (hp : p.ReadOnly)
    (hf : ∀ a, (f a).ReadOnly) : (p >>= f).ReadOnly := by
  change (p.bind f).ReadOnly
  induction p with
  | done a => exact hf a
  | fail => trivial
  | get _ _ ih | scan _ _ ih => exact fun r => ih r (hp r)
  | put | del | storeGet | storePut | storeDel | note => exact hp.elim

omit [LawfulEqOrd K] [DecidableEq K] in
theorem ReadOnly.exec_eq {p : Prog K V E G α} (hp : p.ReadOnly) (s : Flat K V G) :
    p.exec s = (p.eval s.kv, s) := by
  induction p with
  | done | fail => rfl
  | get _ _ ih | scan _ _ ih => exact ih _ (hp _)
  | put | del | storeGet | storePut | storeDel | note => exact hp.elim

omit [LawfulEqOrd K] [DecidableEq K] in
theorem ReadOnly.exec_ok {p : Prog K V E G α} (hp : p.ReadOnly) {s s' : Flat K V G} {a : α} :
    p.exec s = (.ok a, s') ↔ p.eval s.kv = .ok a ∧ s' = s := by
  rw [hp.exec_eq, Prod.mk.injEq, eq_comm (a := s)]

omit [LawfulEqOrd K] [DecidableEq K] in
theorem ReadOnly.exec_bind_ok {p : Prog K V E G α} (hp : p.ReadOnly) {f : α → Prog K V E G β}
    {s s' : Flat K V G} {b : β} :
    (p >>= f).exec s = (.ok b, s') ↔ ∃ a, p.eval s.kv = .ok a ∧ (f a).exec s = (.ok b, s') := by
  rw [Prog.exec_bind_ok]
  simp only [hp.exec_ok, and_assoc, exists_and_left, exists_eq_left]

omit [LawfulEqOrd K] [DecidableEq K] in
theorem eval_pure (a : α) (t : ExtTreeMap K V) : (pure a : Prog K V E G α).eval t = .ok a := rfl

omit [LawfulEqOrd K] [DecidableEq K] in
theorem ReadOnly.eval_bind {p : Prog K V E G α} (hp : p.ReadOnly) (f : α → Prog K V E G β)
    (t : ExtTreeMap K V) : (p >>= f).eval t = (p.eval t).bind fun a => (f a).eval t := by
  unfold eval
  rw [exec_bind, hp.exec_eq]
  cases h : p.eval t with
  | error e => simp only [eval] at h; simp [Except.bind]
  | ok a => simp only [eval] at h; simp [Except.bind]

omit [LawfulEqOrd K] [DecidableEq K] in
theorem ReadOnly.eval_bind_ok {p : Prog K V E G α} (hp : p.ReadOnly) {t : ExtTreeMap K V} {a : α}
    (h : p.eval t = .ok a) (f : α → Prog K V E G β) : (p >>= f).eval t = (f a).eval t := by
  rw [hp.eval_bind, h]
  rfl

/-! ## Readers of some rows -/

def Within (D : K → Prop) : Prog K V E G α → Prop
  | done _ => True
  | fail _ => True
  | get k next => D k ∧ ∀ r, (next r).Within D
  | scan hits next => (∀ k, hits k → D k) ∧ ∀ r, (next r).Within D
  | put _ _ _ => False
  | del _ _ => False
  | storeGet _ _ => False
  | storePut _ _ _ => False
  | storeDel _ _ => False
  | note _ _ => False

variable {D : K → Prop}

omit [Ord K] [TransOrd K] [LawfulEqOrd K] [DecidableEq K] in
theorem Within.bind {p : Prog K V E G α} {f : α → Prog K V E G β} (hp : p.Within D) (hf : ∀ a, (f a).Within D) :
    (p >>= f).Within D := by
  change (p.bind f).Within D
  induction p with
  | done a => exact hf a
  | fail => trivial
  | get _ _ ih | scan _ _ ih => exact ⟨hp.1, fun r => ih r (hp.2 r)⟩
  | put | del | storeGet | storePut | storeDel | note => exact hp.elim

omit [Ord K] [TransOrd K] [LawfulEqOrd K] [DecidableEq K] in
theorem within_forM {f : α → Prog K V E G Unit} (l : List α) (h : ∀ a ∈ l, (f a).Within D) : (l.forM f).Within D := by
  induction l with
  | nil => trivial
  | cons a l ih => exact (h a (by simp)).bind fun _ => ih fun a' ha' => h a' (by simp [ha'])

omit [Ord K] [TransOrd K] [LawfulEqOrd K] [DecidableEq K] in
theorem Within.readOnly {p : Prog K V E G α} (hp : p.Within D) : p.ReadOnly := by
  induction p with
  | done | fail => trivial
  | get _ _ ih | scan _ _ ih => exact fun r => ih r (hp.2 r)
  | put | del | storeGet | storePut | storeDel | note => exact hp.elim

omit [DecidableEq K] in
/-- Stores that have these rows in common are the same to such a reader. -/
theorem Within.eval_congr {p : Prog K V E G α} (hp : p.Within D) {t t' : ExtTreeMap K V} (h : ∀ k, D k → t[k]? = t'[k]?) :
    p.eval t = p.eval t' := by
  unfold eval
  induction p with
  | done | fail => rfl
  | get k next ih =>
    simp only [exec, h k hp.1]
    exact ih _ (hp.2 _)
  | scan hits next ih =>
    have hrows : (t.filter fun k _ => hits k) = t'.filter fun k _ => hits k := by
      apply ExtTreeMap.ext_getElem?
      intro k
      rw [getElem?_filter, getElem?_filter]
      by_cases hk : hits k
      · rw [if_pos hk, if_pos hk, h k (hp.1 k hk)]
      · rw [if_neg hk, if_neg hk]
    simp only [exec, hrows]
    exact ih _ (hp.2 _)
  | put | del | storeGet | storePut | storeDel | note => exact hp.elim

end Prog

/-- A store after one write of a program whose writes go through. -/
def Flat.insert (s : Flat K V G) (k : K) (v : V) : Flat K V G := { s with kv := s.kv.insert k v }

def Flat.erase (s : Flat K V G) (k : K) : Flat K V G := { s with kv := s.kv.erase k }

omit [LawfulEqOrd K] [DecidableEq K] in
@[simp] theorem Flat.insert_kv (s : Flat K V G) (k : K) (v : V) : (s.insert k v).kv = s.kv.insert k v := rfl

omit [LawfulEqOrd K] [DecidableEq K] in
@[simp] theorem Flat.erase_kv (s : Flat K V G) (k : K) : (s.erase k).kv = s.kv.erase k := rfl

omit [LawfulEqOrd K] [DecidableEq K] in
@[simp] theorem Flat.insert_notes (s : Flat K V G) (k : K) (v : V) : (s.insert k v).notes = s.notes := rfl

omit [LawfulEqOrd K] [DecidableEq K] in
@[simp] theorem Flat.erase_notes (s : Flat K V G) (k : K) : (s.erase k).notes = s.notes := rfl

/-! ## Buffered and write-through execution agree -/

section
variable (b : Buf K V G)

omit [LawfulEqOrd K] [DecidableEq K] in
theorem Buf.view_push (op : Pending K V) : (b.push op).view = applyOp b.view op := by
  simp [Buf.view, Buf.push]

theorem getElem?_applyOp_ne {t : ExtTreeMap K V} {op : Pending K V} {k : K} (h : op.key ≠ k) :
    (applyOp t op)[k]? = t[k]? := by
  cases op with
  | put a v => exact getElem?_insert_ne t h v
  | delete a => exact getElem?_erase_ne t h

theorem Buf.lookup_eq (k : K) : b.lookup k = b.view[k]? := by
  obtain ⟨t, ops, n⟩ := b
  simp only [Buf.lookup, Buf.view]
  -- the last write of the buffer either is of the key or leaves its value alone
  induction ops using List.reverseRecOn with
  | nil => rfl
  | append_singleton ops op ih =>
    simp only [List.reverse_append, List.reverse_cons, List.reverse_nil, List.nil_append,
      List.singleton_append, List.find?_cons, List.foldl_append, List.foldl_cons, List.foldl_nil]
    by_cases h : op.key = k
    · subst h
      cases op with
      | put a v => simp [Pending.key, applyOp]
      | delete a => simp [Pending.key, applyOp]
    · simp only [h, decide_false]
      rw [ih, getElem?_applyOp_ne h]

theorem filter_applyOp (t : ExtTreeMap K V) (op : Pending K V) (hits : K → Bool) :
    (applyOp t op).filter (fun k _ => hits k) =
      if hits op.key then applyOp (t.filter fun k _ => hits k) op else t.filter fun k _ => hits k := by
  apply ExtTreeMap.ext_getElem?
  intro a
  by_cases hk : op.key = a
  · subst hk
    cases h : hits op.key with
    | false => simp [h]
    | true => cases op <;> simp_all [Pending.key, applyOp]
  · by_cases h : hits op.key = true
    · rw [if_pos h, getElem?_applyOp_ne hk, getElem?_filter, getElem?_filter, getElem?_applyOp_ne hk]
    · rw [if_neg h, getElem?_filter, getElem?_filter, getElem?_applyOp_ne hk]

theorem Buf.rows_eq (hits : K → Bool) : b.rows hits = (b.view.filter fun k _ => hits k).toList := by
  obtain ⟨t, ops, n⟩ := b
  simp only [Buf.rows, Buf.view]
  congr 1
  induction ops generalizing t with
  | nil => rfl
  | cons op ops ih =>
    rw [List.foldl_cons, List.foldl_cons, ← ih (applyOp t op), filter_applyOp]

end

theorem Prog.ReadOnly.run_eq {p : Prog K V E G α} (hp : p.ReadOnly) (b : Buf K V G) : p.run b = (p.eval b.view, b) := by
  induction p with
  | done | fail => rfl
  | get k next ih =>
    change (next (.ok (b.lookup k))).run b = _
    rw [ih _ (hp _), Buf.lookup_eq]
    rfl
  | scan hits next ih =>
    change (next (.ok (b.rows hits))).run b = _
    rw [ih _ (hp _), Buf.rows_eq]
    rfl
  | put | del | storeGet | storePut | storeDel | note => exact hp.elim

/-- No put of a key stands before a delete of that key. -/
def Ordered (ops : List (Pending K V)) : Prop :=
  ops.Pairwise fun a b => ∀ k v, a = .put k v → b ≠ .delete k

theorem insert_erase_comm (t : ExtTreeMap K V) {k a : K} (h : k ≠ a) (v : V) :
    (t.insert k v).erase a = (t.erase a).insert k v := by
  apply ExtTreeMap.ext_getElem?
  intro c
  simp only [getElem?_insert, getElem?_erase]
  by_cases h1 : a = c
  · by_cases h2 : k = c
    · exact absurd (h2.trans h1.symm) h
    · simp [h1, h2]
  · simp [h1]

theorem erase_erase_comm (t : ExtTreeMap K V) (k a : K) : (t.erase k).erase a = (t.erase a).erase k := by
  apply ExtTreeMap.ext_getElem?
  intro c
  simp only [getElem?_erase]
  split <;> split <;> rfl

theorem foldl_insert_erase (ps : List (K × V)) (t : ExtTreeMap K V) {k : K} (h : ∀ p ∈ ps, p.1 ≠ k) :
    ps.foldl (fun t p => t.insert p.1 p.2) (t.erase k) =
      (ps.foldl (fun t p => t.insert p.1 p.2) t).erase k := by
  induction ps generalizing t with
  | nil => rfl
  | cons p ps ih =>
    rw [List.foldl_cons, List.foldl_cons, ← insert_erase_comm t (h p (by simp)),
      ih _ fun q hq => h q (by simp [hq])]

omit [Ord K] [TransOrd K] [LawfulEqOrd K] [DecidableEq K] in
theorem mem_puts {ops : List (Pending K V)} {p : K × V} : p ∈ puts ops ↔ .put p.1 p.2 ∈ ops := by
  simp only [puts, List.mem_filterMap]
  constructor
  · rintro ⟨op, hm, h⟩
    cases op with
    | put k v => simp only [Option.some.injEq] at h; subst h; exact hm
    | delete k => cases h
  · exact fun h => ⟨_, h, rfl⟩

/-- Flushing a buffer in which no key is put and later deleted makes its writes in order. -/
theorem writeBatch_eq_view {ops : List (Pending K V)} (h : Ordered ops) (t : ExtTreeMap K V) :
    writeBatch t (puts ops) (deletes ops) = ops.foldl applyOp t := by
  induction ops using List.reverseRecOn with
  | nil => rfl
  | append_singleton ops op ih =>
    have hs := List.pairwise_append.mp h
    rw [List.foldl_append, List.foldl_cons, List.foldl_nil, ← ih hs.1]
    cases op with
    | put k v => simp [writeBatch, puts, deletes, applyOp]
    | delete k =>
      have hp : ∀ p ∈ puts ops, p.1 ≠ k := by
        intro p hp e
        exact hs.2.2 _ (mem_puts.mp hp) _ (List.mem_singleton.mpr rfl) p.1 p.2 rfl (by rw [e])
      simp only [writeBatch, puts, deletes, applyOp, List.filterMap_append, List.filterMap_cons,
        List.filterMap_nil, List.append_nil, List.foldl_append, List.foldl_cons, List.foldl_nil]
      exact foldl_insert_erase _ _ hp

theorem foldl_applyOp_erase {ops : List (Pending K V)} {k : K} (h : ∀ v, .put k v ∉ ops)
    (t : ExtTreeMap K V) : ops.foldl applyOp (t.erase k) = (ops.foldl applyOp t).erase k := by
  induction ops generalizing t with
  | nil => rfl
  | cons op ops ih =>
    rw [List.foldl_cons, List.foldl_cons, ← ih fun v hv => h v (List.mem_cons_of_mem _ hv)]
    congr 1
    cases op with
    | put a v =>
      have ha : a ≠ k := by rintro rfl; exact h v (List.mem_cons_self ..)
      exact (insert_erase_comm t ha v).symm
    | delete a => exact (erase_erase_comm t a k).symm

namespace Prog

/-- A static check that buffering is invisible to a program: a direct access happens before
any buffered write (`fresh`), and no key put so far (`W`) is deleted. -/
def Safe : Prog K V E G α → Bool → (K → Prop) → (α → Bool → (K → Prop) → Prop) → Prop
  | done a, fresh, W, Q => Q a fresh W
  | fail _, _, _, _ => True
  | get _ next, fresh, W, Q => ∀ r, (next r).Safe fresh W Q
  | scan hits next, fresh, W, Q =>
    ∀ r, (∀ rows, r = .ok rows → ∀ p ∈ rows, hits p.1 = true) → (next r).Safe fresh W Q
  | put k _ next, _, W, Q => next.Safe false (fun x => x = k ∨ W x) Q
  | del k next, _, W, Q => ¬ W k ∧ next.Safe false W Q
  | storeGet _ next, fresh, W, Q => fresh = true ∧ ∀ r, (next r).Safe fresh W Q
  | storePut _ _ next, fresh, W, Q => fresh = true ∧ ∀ r, (next r).Safe fresh W Q
  | storeDel k next, fresh, W, Q => ¬ W k ∧ ∀ r, (next r).Safe fresh W Q
  | note _ next, fresh, W, Q => next.Safe fresh W Q

omit [Ord K] [TransOrd K] [LawfulEqOrd K] [DecidableEq K] in
theorem Safe.mono {p : Prog K V E G α} {fresh : Bool} {W : K → Prop}
    {Q Q' : α → Bool → (K → Prop) → Prop} (h : p.Safe fresh W Q) (hQ : ∀ a f W, Q a f W → Q' a f W) :
    p.Safe fresh W Q' := by
  induction p generalizing fresh W with
  | done a => exact hQ _ _ _ h
  | fail => trivial
  | put _ _ _ ih => exact ih h
  | note _ _ ih => exact ih h
  | del _ _ ih => exact ⟨h.1, ih h.2⟩
  | get _ _ ih => exact fun r => ih r (h r)
  | scan _ _ ih => exact fun r hr => ih r (h r hr)
  | storeGet _ _ ih | storePut _ _ _ ih | storeDel _ _ ih => exact ⟨h.1, fun r => ih r (h.2 r)⟩

omit [Ord K] [TransOrd K] [LawfulEqOrd K] [DecidableEq K] in
@[simp] theorem safe_pure (a : α) (fresh : Bool) (W : K → Prop) (Q : α → Bool → (K → Prop) → Prop) :
    (pure a : Prog K V E G α).Safe fresh W Q ↔ Q a fresh W := Iff.rfl

omit [Ord K] [TransOrd K] [LawfulEqOrd K] [DecidableEq K] in
@[simp] theorem safe_bind {p : Prog K V E G α} {f : α → Prog K V E G β} {fresh : Bool} {W : K → Prop}
    {Q : β → Bool → (K → Prop) → Prop} :
    (p >>= f).Safe fresh W Q ↔ p.Safe fresh W fun a fr W => (f a).Safe fr W Q := by
  change (p.bind f).Safe fresh W Q ↔ _
  induction p generalizing fresh W with
  | done | fail => rfl
  | put _ _ _ ih => exact ih
  | note _ _ ih => exact ih
  | del _ _ ih => exact and_congr_right fun _ => ih
  | get _ _ ih => exact forall_congr' fun r => ih r
  | scan _ _ ih => exact forall_congr' fun r => imp_congr_right fun _ => ih r
  | storeGet _ _ ih | storePut _ _ _ ih | storeDel _ _ ih =>
    exact and_congr_right fun _ => forall_congr' fun r => ih r

omit [Ord K] [TransOrd K] [LawfulEqOrd K] [DecidableEq K] in
@[simp] theorem safe_map {p : Prog K V E G α} {f : α → β} {fresh : Bool} {W : K → Prop}
    {Q : β → Bool → (K → Prop) → Prop} :
    (f <$> p).Safe fresh W Q ↔ p.Safe fresh W fun a => Q (f a) := by
  rw [map_eq_pure_bind, safe_bind]
  simp only [safe_pure]

omit [Ord K] [TransOrd K] [LawfulEqOrd K] [DecidableEq K] in
theorem ReadOnly.safe {p : Prog K V E G α} (hp : p.ReadOnly) {fresh : Bool} {W : K → Prop}
    {Q : α → Bool → (K → Prop) → Prop} (h : ∀ a, Q a fresh W) : p.Safe fresh W Q := by
  induction p with
  | done a => exact h a
  | fail => trivial
  | get _ _ ih => exact fun r => ih r (hp r)
  | scan _ _ ih => exact fun r _ => ih r (hp r)
  | put | del | storeGet | storePut | storeDel | note => exact hp.elim

omit [Ord K] [TransOrd K] [LawfulEqOrd K] [DecidableEq K] in
theorem safe_mapM {f : α → Prog K V E G β} (I : List α → Bool → (K → Prop) → Prop) :
    ∀ (l : List α) (fresh : Bool) (W : K → Prop) (Q : List β → Bool → (K → Prop) → Prop),
      I l fresh W → (∀ a l fresh W, I (a :: l) fresh W → (f a).Safe fresh W fun _ => I l) →
      (∀ bs fresh W, I [] fresh W → Q bs fresh W) → (l.mapM f).Safe fresh W Q
  | [], _, _, _, h, _, hq => by
    rw [List.mapM_nil, safe_pure]
    exact hq [] _ _ h
  | a :: l, fresh, W, Q, h, hs, hq => by
    rw [List.mapM_cons, safe_bind]
    refine (hs a l fresh W h).mono fun b fr W' h' => ?_
    rw [safe_bind]
    exact safe_mapM I l fr W' _ h' hs fun bs fr' W'' h'' => hq (b :: bs) fr' W'' h''

/-- What the buffer of a safe program satisfies after the writes recorded by `fresh` and `W`. -/
structure Fits (b : Buf K V G) (fresh : Bool) (W : K → Prop) : Prop where
  fresh : fresh = true → b.pending = []
  written : ∀ k v, .put k v ∈ b.pending → W k
  ordered : Ordered b.pending

omit [TransOrd K] [LawfulEqOrd K] [DecidableEq K] in
theorem Fits.push_put {b : Buf K V G} {fresh : Bool} {W : K → Prop} (h : Fits b fresh W) (k : K) (v : V) :
    Fits (b.push (.put k v)) false fun x => x = k ∨ W x where
  fresh := by simp
  written := by
    intro a w hm
    simp only [Buf.push, List.mem_append, List.mem_singleton, Pending.put.injEq] at hm
    rcases hm with hm | ⟨rfl, -⟩
    · exact .inr (h.written a w hm)
    · exact .inl rfl
  ordered := by
    refine List.pairwise_append.mpr ⟨h.ordered, List.pairwise_singleton .., ?_⟩
    intro a _ c hc k' v' _ e
    rw [List.mem_singleton.mp hc] at e
    cases e

omit [TransOrd K] [LawfulEqOrd K] [DecidableEq K] in
theorem Fits.push_delete {b : Buf K V G} {fresh : Bool} {W : K → Prop} (h : Fits b fresh W) {k : K}
    (hk : ¬ W k) : Fits (b.push (.delete k)) false W where
  fresh := by simp
  written := by
    intro a w hm
    simp only [Buf.push, List.mem_append, List.mem_singleton, reduceCtorEq, or_false] at hm
    exact h.written a w hm
  ordered := by
    refine List.pairwise_append.mpr ⟨h.ordered, List.pairwise_singleton .., ?_⟩
    intro a ha c hc k' v' he e
    rw [List.mem_singleton.mp hc, Pending.delete.injEq] at e
    subst e
    exact hk (h.written _ _ (he ▸ ha))

/-- Buffered execution of a safe program is its write-through execution, seen through the buffer. -/
theorem run_eq_exec {p : Prog K V E G α} {fresh : Bool} {W : K → Prop}
    {Q : α → Bool → (K → Prop) → Prop} (hp : p.Safe fresh W Q) {b : Buf K V G} (hb : Fits b fresh W) :
    p.exec b.flat = ((p.run b).1, (p.run b).2.flat) ∧ Ordered (p.run b).2.pending := by
  induction p generalizing fresh W b with
  | done | fail => exact ⟨rfl, hb.ordered⟩
  | note g next ih =>
    exact ih hp (b := { b with notes := b.notes ++ [g] }) ⟨hb.fresh, hb.written, hb.ordered⟩
  | put k v next ih =>
    have := ih hp (hb.push_put k v)
    simp only [Buf.flat, Buf.view_push] at this
    exact this
  | del k next ih =>
    have := ih hp.2 (hb.push_delete hp.1)
    simp only [Buf.flat, Buf.view_push] at this
    exact this
  | get k next ih =>
    have := ih (.ok (b.lookup k)) (hp _) hb
    simp only [run, exec]
    rw [Buf.lookup_eq] at this ⊢
    exact this
  | scan hits next ih =>
    have hr : ∀ rows, Except.ok (ε := E) (b.rows hits) = .ok rows → ∀ p ∈ rows, hits p.1 = true := by
      rintro rows ⟨rfl⟩ q hq
      rw [Buf.rows_eq, ExtTreeMap.toList_filter, List.mem_filter] at hq
      exact hq.2
    have := ih (.ok (b.rows hits)) (hp _ hr) hb
    simp only [run, exec]
    rw [Buf.rows_eq] at this ⊢
    exact this
  | storeGet k next ih =>
    have := ih (.ok b.store[k]?) (hp.2 _) hb
    simp only [run, exec, Buf.flat, Buf.view, hb.fresh hp.1, List.foldl_nil] at this ⊢
    exact this
  | storePut k v next ih =>
    have := ih (.ok ()) (hp.2 _) (b := { b with store := b.store.insert k v }) ⟨hb.fresh, hb.written, hb.ordered⟩
    simp only [run, exec, Buf.flat, Buf.view, hb.fresh hp.1, List.foldl_nil] at this ⊢
    exact this
  | storeDel k next ih =>
    have := ih (.ok ()) (hp.2 _) (b := { b with store := b.store.erase k }) ⟨hb.fresh, hb.written, hb.ordered⟩
    simp only [run, exec, Buf.flat, Buf.view] at this ⊢
    rw [foldl_applyOp_erase fun v hv => hp.1 (hb.written _ _ hv)] at this
    exact this

end Prog

end

end KV
