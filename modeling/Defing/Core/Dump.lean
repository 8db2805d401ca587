import Mathlib.Data.List.TakeWhile
import Defing.Core.Model
import Defing.Lib.Bytes
import Defing.Lib.Prog
import Defing.Lib.Scan

/-!
# Dumps of the store

The store as it lies under the state machine, keys and values in bytes. It is
exported in pages, and restored from batches of any size.
-/

namespace Defing

open Std (ExtTreeMap)

abbrev Table := ExtTreeMap Bytes Bytes
abbrev KeyValuePairs := List (Bytes × Bytes)

/-! ## The two stores -/

inductive Backend
  | default
  | redb
  deriving DecidableEq

namespace Table

/-- `get_prefix`: a range from the prefix on, up to the first key without it. -/
def getPrefix (t : Table) (stem : Bytes) : KeyValuePairs :=
  (Scan.rangeFrom stem t.toList).takeWhile fun r => stem.isPrefixOf r.1

def getPrefixKeys (t : Table) (stem : Bytes) : List Bytes := (t.getPrefix stem).map (·.1)

def upTo (after : Option Bytes) (k : Bytes) : Bool := after.any fun a => compare k a != .gt

def pageOf (after : Option Bytes) (budget : Nat) : (started : Bool) → (bytes : Nat) → KeyValuePairs → KeyValuePairs
  | _, _, [] => []
  | started, bytes, (k, v) :: rows =>
    if !started && upTo after k then pageOf after budget started bytes rows
    else
      let bytes := bytes + (k.length + v.length)
      if bytes ≥ max budget 1 then [(k, v)] else (k, v) :: pageOf after budget true bytes rows

def redbPageOf (stem : Bytes) (after : Option Bytes) (budget : Nat) : (bytes : Nat) → KeyValuePairs → KeyValuePairs
  | _, [] => []
  | bytes, (k, v) :: rows =>
    if !stem.isPrefixOf k then []
    else if upTo after k then redbPageOf stem after budget bytes rows
    else
      let bytes := bytes + (k.length + v.length)
      if bytes ≥ max budget 1 then [(k, v)] else (k, v) :: redbPageOf stem after budget bytes rows

def getPrefixPage (t : Table) (stem : Bytes) (after : Option Bytes) (budget : Nat) : Backend → KeyValuePairs
  | .default => pageOf after budget after.isNone 0 (t.getPrefix stem)
  | .redb => redbPageOf stem after budget 0 (Scan.rangeFrom (after.getD stem) t.toList)

end Table

/-! ## Pages as beginnings -/

section
variable {t : Table} {stem : Bytes} {after : Option Bytes} {budget bytes : Nat} {rows : KeyValuePairs}

def rowSize (r : Bytes × Bytes) : Nat := r.1.length + r.2.length

theorem sorted_toList (t : Table) : Scan.Sorted t.toList := ExtTreeMap.ordered_keys_toList

theorem getPrefix_eq_filter (t : Table) (stem : Bytes) : t.getPrefix stem = t.toList.filter fun r => stem.isPrefixOf r.1 :=
  Scan.scan_eq_filter (sorted_toList t) stem

theorem upTo_none (k : Bytes) : Table.upTo none k = false := rfl

theorem upTo_some {a k : Bytes} : Table.upTo (some a) k = false ↔ compare a k = .lt := by
  rw [Table.upTo, Option.any_some, bne_eq_false_iff_eq, Std.OrientedCmp.gt_iff_lt]

theorem pageOf_started (bytes : Nat) (rows : KeyValuePairs) :
    Table.pageOf after budget true bytes rows = Scan.cut rowSize (max budget 1) bytes rows := by
  induction rows generalizing bytes with
  | nil => rfl
  | cons r rows ih =>
    rw [Table.pageOf, Scan.cut, if_neg (by simp)]
    dsimp only
    rw [ih]
    rfl

theorem pageOf_eq (h : Scan.Sorted rows) : Table.pageOf after budget after.isNone 0 rows =
    Scan.cut rowSize (max budget 1) 0 (rows.filter fun r => !Table.upTo after r.1) := by
  cases after with
  | none =>
    have hall : (rows.filter fun r => !Table.upTo none r.1) = rows := List.filter_eq_self.mpr fun r _ => rfl
    rw [hall]
    exact pageOf_started 0 rows
  | some a =>
    induction rows with
    | nil => rfl
    | cons r rows ih =>
      obtain ⟨hr, hrows⟩ := List.pairwise_cons.mp h
      by_cases hup : Table.upTo (some a) r.1
      · rw [List.filter_cons_of_neg (by simp [hup]), ← ih hrows, Table.pageOf, if_pos (by simp [hup])]
      · have hall : (rows.filter fun r => !Table.upTo (some a) r.1) = rows := by
          refine List.filter_eq_self.mpr ?_
          intro s hs
          have har := upTo_some.mp (Bool.eq_false_iff.mpr hup)
          rw [upTo_some.mpr (Std.TransCmp.lt_trans har (hr s hs))]
          rfl
        rw [List.filter_cons_of_pos (by simp [hup]), hall, Table.pageOf, if_neg (by simp [hup]), Scan.cut]
        dsimp only
        rw [pageOf_started]
        rfl

theorem redbPageOf_eq (bytes : Nat) (rows : KeyValuePairs) : Table.redbPageOf stem after budget bytes rows =
    Scan.cut rowSize (max budget 1) bytes
      ((rows.takeWhile fun r => stem.isPrefixOf r.1).filter fun r => !Table.upTo after r.1) := by
  induction rows generalizing bytes with
  | nil => rfl
  | cons r rows ih =>
    have hp : (r :: rows).takeWhile (fun r => stem.isPrefixOf r.1) =
        if stem.isPrefixOf r.1 then r :: rows.takeWhile (fun r => stem.isPrefixOf r.1) else [] := List.takeWhile_cons
    rw [hp, Table.redbPageOf]
    by_cases hstem : stem.isPrefixOf r.1
    · rw [if_neg (by simp [hstem]), if_pos hstem]
      by_cases hup : Table.upTo after r.1
      · rw [if_pos hup, List.filter_cons_of_neg (by simp [hup]), ih]
      · rw [if_neg hup, List.filter_cons_of_pos (by simp [hup]), Scan.cut]
        dsimp only
        rw [ih]
        rfl
    · rw [if_pos (by simp [hstem]), if_neg hstem]
      rfl

/-- The whole table is paged alike: what comes after the cursor, up to the budget. -/
theorem getPrefixPage_nil (t : Table) (after : Option Bytes) (budget : Nat) (b : Backend) :
    t.getPrefixPage [] after budget b =
      Scan.cut rowSize (max budget 1) 0 (t.toList.filter fun r => !Table.upTo after r.1) := by
  have hall (rows : KeyValuePairs) : (rows.takeWhile fun r => ([] : Bytes).isPrefixOf r.1) = rows :=
    List.takeWhile_eq_self_iff.mpr fun r _ => rfl
  cases b with
  | default =>
    have hscan : t.getPrefix [] = t.toList := by
      rw [getPrefix_eq_filter]
      exact List.filter_eq_self.mpr fun r _ => rfl
    rw [Table.getPrefixPage, hscan, pageOf_eq (sorted_toList t)]
  | redb =>
    rw [Table.getPrefixPage, redbPageOf_eq, hall, Scan.rangeFrom_eq_filter (sorted_toList t), List.filter_filter]
    refine congrArg (Scan.cut rowSize (max budget 1) 0) (List.filter_congr ?_)
    intro r _
    cases after with
    | none => cases hr : r.1 <;> simp [Table.upTo]
    | some a =>
      cases hup : Table.upTo (some a) r.1 with
      | true => rfl
      | false => simpa using Scan.lt_asymm (upTo_some.mp hup)

theorem of_mem_page {b : Backend} {r : Bytes × Bytes} (h : r ∈ t.getPrefixPage [] after budget b) :
    r ∈ t.toList ∧ Table.upTo after r.1 = false := by
  rw [getPrefixPage_nil] at h
  have hmem := List.mem_filter.mp (Scan.cut_prefix.subset h)
  exact ⟨hmem.1, by simpa using hmem.2⟩

def rowsAfter (t : Table) (after : Option Bytes) : KeyValuePairs := t.toList.filter fun r => !Table.upTo after r.1

theorem rowsAfter_eq (t : Table) (after : Option Bytes) (budget : Nat) (b : Backend) {last : Bytes × Bytes}
    (h : (t.getPrefixPage [] after budget b).getLast? = some last) :
    rowsAfter t after = t.getPrefixPage [] after budget b ++ rowsAfter t (some last.1) := by
  have hsorted : Scan.Sorted (rowsAfter t after) := (sorted_toList t).filter _
  have hprefix : t.getPrefixPage [] after budget b <+: rowsAfter t after := by
    rw [getPrefixPage_nil]
    exact Scan.cut_prefix
  have hrest : (rowsAfter t after).filter (fun r => compare last.1 r.1 == .lt) = rowsAfter t (some last.1) := by
    rw [rowsAfter, rowsAfter, List.filter_filter]
    refine List.filter_congr ?_
    intro r _
    have hlast := (of_mem_page (List.mem_of_getLast? h)).2
    cases hup : Table.upTo (some last.1) r.1 with
    | true =>
      have hne : ¬ compare last.1 r.1 = .lt := fun hlt => by simp [upTo_some.mpr hlt] at hup
      simp [hne]
    | false =>
      have hlt := upTo_some.mp hup
      cases after with
      | none => simp [hlt, upTo_none]
      | some a =>
        have hr : Table.upTo (some a) r.1 = false := upTo_some.mpr (Std.TransCmp.lt_trans (upTo_some.mp hlast) hlt)
        simp [hlt, hr]
  have happ := Scan.rest_eq_filter hsorted hprefix h
  rw [hrest] at happ
  exact happ

end

/-! ## The state machine -/

/-- The store of the state machine, with the writes of a command in front of it. -/
structure StateMachine where
  backend : Backend
  buf : KV.Buf Bytes Bytes Unit

namespace StateMachine

/-- `dump_all`: `get_prefix_merged` of everything. -/
def dumpAll (sm : StateMachine) : KeyValuePairs := sm.buf.rows fun k => ([] : Bytes).isPrefixOf k

def dumpFrom (sm : StateMachine) (budget : Nat) (after : Option Bytes) : List KeyValuePairs :=
  match _h : (Table.getPrefixPage sm.buf.store [] after budget sm.backend).getLast? with
  | none => []
  | some last => Table.getPrefixPage sm.buf.store [] after budget sm.backend :: sm.dumpFrom budget (some last.1)
termination_by (rowsAfter sm.buf.store after).length
decreasing_by
  have hlen := congrArg List.length (rowsAfter_eq _ _ _ _ _h)
  have hpos := List.length_pos_of_mem (List.mem_of_getLast? _h)
  rw [List.length_append] at hlen
  omega

def dumpBatches (sm : StateMachine) (budget : Nat) : List KeyValuePairs := sm.dumpFrom (max budget 1) none

/-- The batches of `restore_stream`, one after the other; the first of them clears the store. -/
def restoreFrom (t : Table) : (first : Bool) → List (Except Error KeyValuePairs) → Except Error Unit × Table
  | first, [] =>
    if first then
      let existing := t.getPrefixKeys []
      if existing ≠ [] then (.ok (), KV.writeBatch t [] existing) else (.ok (), t)
    else (.ok (), t)
  | _, .error e :: _ => (.error e, t)
  | first, .ok batch :: batches =>
    if first then restoreFrom (KV.writeBatch t batch (t.getPrefixKeys [])) false batches
    else if batch ≠ [] then restoreFrom (KV.writeBatch t batch []) false batches
    else restoreFrom t false batches

def restoreStream (sm : StateMachine) (batches : List (Except Error KeyValuePairs)) : Except Error Unit × StateMachine :=
  let (r, t) := restoreFrom sm.buf.store true batches
  (r, { sm with buf := { sm.buf with store := t } })

def chunkEnd (budget : Nat) : (bytes : Nat) → (start : Bool) → KeyValuePairs → KeyValuePairs × KeyValuePairs
  | _, _, [] => ([], [])
  | bytes, start, r :: pairs =>
    if bytes < budget ∨ start then
      let (chunk, rest) := chunkEnd budget (bytes + (r.1.length + r.2.length)) false pairs
      (r :: chunk, rest)
    else ([], r :: pairs)

theorem chunkEnd_append (budget bytes : Nat) (start : Bool) (pairs : KeyValuePairs) :
    (chunkEnd budget bytes start pairs).1 ++ (chunkEnd budget bytes start pairs).2 = pairs := by
  induction pairs generalizing bytes start with
  | nil => rfl
  | cons r pairs ih =>
    rw [chunkEnd]
    split
    · exact congrArg (r :: ·) (ih _ false)
    · rfl

def chunkPairs (pairs : KeyValuePairs) (chunkBytes : Nat) : List KeyValuePairs :=
  match pairs with
  | [] => []
  | r :: pairs =>
    let chunk := chunkEnd (max chunkBytes 1) 0 true (r :: pairs)
    chunk.1 :: chunkPairs chunk.2 chunkBytes
termination_by pairs.length
decreasing_by
  have hlen := congrArg List.length (chunkEnd_append (max chunkBytes 1) (0 + (r.1.length + r.2.length)) false pairs)
  rw [List.length_append] at hlen
  rw [chunkEnd, if_pos (.inr rfl), List.length_cons]
  dsimp only
  omega

def restoreChunkBytes : Nat := 64 * 1024 * 1024

def restoreAll (sm : StateMachine) (pairs : KeyValuePairs) : Except Error Unit × StateMachine :=
  sm.restoreStream ((chunkPairs pairs restoreChunkBytes).map .ok)

end StateMachine

end Defing
