import Defing.Core.Apply

/-! # The audit log and its retention -/

namespace Defing

/-- `str::parse` for a sequence number: digits, after a plus sign or not. Sequence numbers have any size here. -/
def parseSeq (s : String) : Option Nat :=
  let digits := match s.toList with
    | '+' :: rest => rest
    | text => text
  if digits ≠ [] ∧ digits.all Char.isDigit then some (Nat.ofDigitChars 10 digits 0) else none

def auditSeqOf (row : String × Stored) : Option Nat := (stripPrefix kAudit row.1).bind parseSeq

def auditMatches (action project : Option String) (since : Option Int) (e : AuditEntry) : Bool :=
  action.all (· = e.action) && project.all (fun p => e.project = some p) && since.all (· ≤ e.ts)

def getAudit [SerdeJson] (action project : Option String) (since : Option Int) (limit : Nat) : M (List AuditEntry) := do
  let rows ← getPrefixMerged kAudit
  let entries : List AuditEntry := parsed (rows.filter fun row => (auditSeqOf row).isSome)
  let out := (entries.filter (auditMatches action project since)).insertionSort fun a b => b.seq ≤ a.seq
  pure (if out.length > limit then out.take limit else out)

def pruneAudit (keep : Nat) : M Nat := do
  let rows ← getPrefixMerged kAudit
  let seqs := (rows.filterMap auditSeqOf).insertionSort (· ≤ ·)
  let total := seqs.length
  if total ≤ keep then pure 0
  else
    (seqs.take (total - keep)).forM fun seq => storeDelete (auditKey seq)
    pure (total - keep)

def pruneAuditStore (keep : Nat) (t : Store) : Store := ((pruneAudit keep).run { store := t }).2.store

def dumpStore (t : Store) : List (String × Stored) := t.toList

def restoreStore (pairs : List (String × Stored)) (t : Store) : Store := KV.writeBatch t pairs (t.toList.map (·.1))

end Defing
