import Defing.Core.Cidr
import Defing.Core.Apply

/-!
# What clients read

The readers of the data plane, gray rules and the history of a branch. Pruning
deletes from the store at once, outside of any command.
-/

namespace Defing

open KV (Prog Buf)

structure ClientCtx where
  instanceId : String
  labels : StrMap String := ∅
  ip : Option IpAddr := none

inductive ResolvedVersion
  | stable (version : Nat)
  | gray (seq : Nat)
  deriving DecidableEq, Repr

structure ConfigSnapshot where
  project : String
  branch : String
  version : Nat
  resolvedVersion : Nat
  structureVersion : Nat
  groups : SnapshotMap
  gray : Bool
  deriving DecidableEq

/-! ## Gray rules -/

def fnv1aHash (s : String) : UInt32 :=
  s.toUTF8.toList.foldl (fun h byte => (h ^^^ byte.toUInt32) * 0x01000193) 0x811c9dc5

/-- The highest `bits` of `width` bits. -/
def netMask (width bits : Nat) : Nat :=
  if bits = 0 then 0 else ((2 ^ width - 1) <<< (width - bits)) % 2 ^ width

def ipInCidr (ip : IpAddr) (cidr : String) : Bool :=
  match splitOnceSlash cidr with
  | none => false
  | some (addrS, bitsS) =>
    match parseIpAddr addrS, parseUnsigned (2 ^ 32 - 1) bitsS with
    | some addr, some bits =>
      match ip, addr with
      | .v4 a, .v4 b => bits ≤ 32 ∧ a &&& netMask 32 bits = b &&& netMask 32 bits
      | .v6 a, .v6 b => bits ≤ 128 ∧ a &&& netMask 128 bits = b &&& netMask 128 bits
      | _, _ => false
    | _, _ => false

/-- Labels, then addresses, then the bucket of the instance. -/
def ruleMatches (rule : GrayRule) (ctx : ClientCtx) : Bool :=
  rule.matchLabels.any (fun sel => ctx.labels[sel.key]? = some sel.value) ||
    (match ctx.ip with
      | some ip => rule.ipCidrs.any (ipInCidr ip)
      | none => false) ||
    match rule.percentage with
    | some pct => ctx.instanceId ≠ "" ∧ (fnv1aHash ctx.instanceId).toNat % 100 < pct
    | none => false

example : fnv1aHash "a" = 0xe40c292c := by decide +kernel
example : ipInCidr (.v4 0x0a010203) "10.0.0.0/8" = true := by decide +kernel

/-! ## Configurations -/

variable [SerdeJson]

def configState (id : ProjectId) (branch : BranchName) : M BranchState := do
  okOr (← getBranchState id branch) (Error.notFound s!"branch {branch} of {id}")

def structureVersionOf (id : ProjectId) : M Nat := do
  pure ((← getStructure id).getD { version := 0, groups := [] }).version

/-- Version zero stands for the active one. -/
def getConfig (id : ProjectId) (branch : BranchName) (version : Nat) : M ConfigSnapshot := do
  let st ← configState id branch
  let vno := if version = 0 then st.activeVersion else version
  ensure (vno ≠ 0) (Error.notFound "no published version yet")
  let snap ← snapshotOf id branch vno
  let structureVersion ← structureVersionOf id
  pure { project := id, branch, version := vno, resolvedVersion := vno, structureVersion, groups := snap, gray := false }

/-- Without a gray release, or an identity, or a rule that matches, the stable version. -/
def resolveVersion (id : ProjectId) (branch : BranchName) (ctx : ClientCtx) : M ResolvedVersion := do
  let st ← configState id branch
  match st.grayRule with
  | none => pure (.stable st.activeVersion)
  | some rule =>
    if st.graySeq = 0 ∨ ctx.instanceId = "" then pure (.stable st.activeVersion)
    else if ruleMatches rule ctx then pure (.gray st.graySeq)
    else pure (.stable st.activeVersion)

def getConfigResolved (id : ProjectId) (branch : BranchName) (version : Nat) (ctx : ClientCtx) : M ConfigSnapshot := do
  if version ≠ 0 then getConfig id branch version
  else
    match ← resolveVersion id branch ctx with
    | .stable _ => getConfig id branch 0
    | .gray seq =>
      let snap ← graySnapshotOf id branch seq
      let structureVersion ← structureVersionOf id
      let st ← configState id branch
      -- the version stays the active one: clients use it as the cursor of their watch
      pure { project := id, branch, version := st.activeVersion, resolvedVersion := seq, structureVersion,
             groups := snap, gray := true }

/-! ## History -/

def versionHistory (id : ProjectId) (branch : BranchName) : M (List VersionRecord) := do
  let rows ← getPrefixMerged (kProject ++ id ++ kBranch ++ branch ++ kVersion)
  let records := rows.filter fun row => ¬ (endsWith "/snap" row.1 ∨ endsWith "/diff" row.1)
  pure ((parsed records).insertionSort fun (a b : VersionRecord) => a.no ≤ b.no)

def deleteVersion (project : ProjectId) (branch : BranchName) (no : Nat) : M Unit := do
  storeDelete (versionKey project branch no)
  storeDelete (snapshotKey project branch no)
  storeDelete (diffKey project branch no)

/-- The oldest version that pruning keeps: the checkpoint of the newest one it need not keep. -/
def keepFrom (newestKept : Nat) : Nat :=
  if ¬ checkpointInterval ∣ newestKept ∧ newestKept ≠ 1 then
    let base := (newestKept - 1) / checkpointInterval * checkpointInterval
    if base = 0 then 1 else base
  else newestKept

def pruneVersions (project : ProjectId) (branch : BranchName) (keep : Nat) : M Nat := do
  let st ← okOr (← getBranchState project branch) (Error.notFound s!"branch {branch}")
  let hist ← versionHistory project branch
  match hist[hist.length - keep - 1]? with
  | some newest =>
    if hist.length ≤ keep then pure 0
    else
      let old := hist.filter fun rec => ¬ (keepFrom newest.no ≤ rec.no ∨ rec.no = st.activeVersion)
      old.forM fun rec => deleteVersion project branch rec.no
      pure old.length
  | none => pure 0

def prune (project : ProjectId) (branch : BranchName) (keep : Nat) (t : Store) : Store :=
  ((pruneVersions project branch keep).run { store := t }).2.store

end Defing
