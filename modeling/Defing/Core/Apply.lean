import Defing.Core.Publish
import Defing.Core.Account

/-!
# The state machine

`apply` runs a command with a write buffer in front of the store: the buffer
is committed as one batch when the command succeeds and dropped when it fails.
The store never fails here; failing stores are the subject of the replication
layer.
-/

namespace Defing

open KV (Prog Buf)

abbrev Store := StrMap Stored

/-- The clock of a command; zero, as in old logs, falls back to the argument of `apply`. -/
def effTs (ts fallback : Int) : Int := if ts > 0 then ts else fallback

variable [SerdeJson]

def applyInner (cmd : Command) (nowMs : Int) : M (List PublishEvent) :=
  match cmd with
  | .projectCreate name operator ts cloneFrom => applyProjectCreate name (effTs ts nowMs) operator cloneFrom
  | .projectDelete id operator => applyProjectDelete id operator
  | .branchCreate project name source operator ts =>
    applyBranchCreate project name source (effTs ts nowMs) operator
  | .branchDelete project name operator => applyBranchDelete project name operator
  | .structureDraftSet project baseVersion groups operator =>
    applyStructureDraftSet project baseVersion groups operator
  | .publishStructure project comment requestId operator ts policy =>
    applyPublishStructure project comment requestId (effTs ts nowMs) operator policy
  | .draftUpdate project branch updates deletes sharedBindings operator ts expectedDraftRev =>
    applyDraftUpdate project branch updates deletes sharedBindings (effTs ts nowMs) operator expectedDraftRev
  | .publish project branch comment requestId operator ts policy =>
    applyPublish project branch comment requestId (effTs ts nowMs) operator policy
  | .rollback project branch toVersion comment requestId operator ts =>
    applyRollback project branch toVersion comment requestId (effTs ts nowMs) operator
  | .sharedDraftUpdate item operator => applySharedDraftUpdate item operator
  | .sharedPublish comment requestId operator ts cascade policy =>
    applySharedPublish comment requestId (effTs ts nowMs) operator cascade policy
  | .sharedDelete key operator => applySharedDelete key operator
  | .sessionLogin tokenHash issuedAt expiresAt => applySessionLogin tokenHash issuedAt expiresAt
  | .sessionLogout => applySessionLogout
  | .sessionHeartbeat expiresAt => applySessionHeartbeat expiresAt
  | .projectAdminCreate project username salt passwordHash ts =>
    applyProjectAdminCreate project username salt passwordHash (effTs ts nowMs)
  | .projectAdminDelete username => applyProjectAdminDelete username
  | .projectAdminSetPassword username salt passwordHash =>
    applyProjectAdminSetPassword username salt passwordHash
  | .paSessionLogin username tokenHash issuedAt expiresAt deviceId =>
    applyPaSessionLogin username tokenHash issuedAt expiresAt deviceId
  | .paSessionLogout username => applyPaSessionLogout username
  | .paSessionHeartbeat username expiresAt => applyPaSessionHeartbeat username expiresAt
  | .adminSetPassword passwordHash => applyAdminSetPassword passwordHash
  | .multiSessionLogin tokenHash issuedAt expiresAt sessionId =>
    applyMultiSessionLogin tokenHash issuedAt expiresAt sessionId
  | .multiSessionLogout sessionId => applyMultiSessionLogout sessionId
  | .multiSessionHeartbeat sessionId expiresAt => applyMultiSessionHeartbeat sessionId expiresAt
  | .multiPaSessionLogin username tokenHash issuedAt expiresAt deviceId sessionId =>
    applyMultiPaSessionLogin username tokenHash issuedAt expiresAt deviceId sessionId
  | .multiPaSessionLogout username sessionId => applyMultiPaSessionLogout username sessionId
  | .multiPaSessionHeartbeat username sessionId expiresAt =>
    applyMultiPaSessionHeartbeat username sessionId expiresAt
  | .multiSessionLogoutAll => applyMultiSessionLogoutAll
  | .multiPaSessionLogoutAll username => applyMultiPaSessionLogoutAll username
  | .globalAdminCreate username salt passwordHash ts =>
    applyGlobalAdminCreate username salt passwordHash (effTs ts nowMs)
  | .globalAdminDelete username => applyGlobalAdminDelete username
  | .globalAdminSetPassword username salt passwordHash =>
    applyGlobalAdminSetPassword username salt passwordHash
  | .multiGaSessionLogin username tokenHash issuedAt expiresAt deviceId sessionId =>
    applyMultiGaSessionLogin username tokenHash issuedAt expiresAt deviceId sessionId
  | .multiGaSessionLogout username sessionId => applyMultiGaSessionLogout username sessionId
  | .multiGaSessionHeartbeat username sessionId expiresAt =>
    applyMultiGaSessionHeartbeat username sessionId expiresAt
  | .multiGaSessionLogoutAll username => applyMultiGaSessionLogoutAll username
  | .globalAdminSessionsRevokeAll => applyGlobalAdminSessionsRevokeAll
  | .auditAppend entry => applyAuditAppend entry
  | .rotateMasterKey _ _ => applyRotateMasterKey
  | .grayPublish project branch rule comment requestId operator ts policy =>
    applyGrayPublish project branch rule comment requestId (effTs ts nowMs) operator policy
  | .grayPromote project branch comment requestId operator ts =>
    applyGrayPromote project branch comment requestId (effTs ts nowMs) operator
  | .grayAbort project branch comment requestId operator ts =>
    applyGrayAbort project branch comment requestId (effTs ts nowMs) operator
  | .projectTokenCreate project name tokenHash operator ts =>
    applyProjectTokenCreate project name tokenHash operator (effTs ts nowMs)
  | .projectTokenRevoke project tokenId => applyProjectTokenRevoke project tokenId

/-- What `StateMachine::apply` returns and leaves behind. -/
structure Outcome where
  result : Except Error (List PublishEvent)
  store : Store
  /-- The versions the command created, as a history variable. -/
  writes : List VersionWrite

def apply (cmd : Command) (nowMs : Int) (t : Store) : Outcome :=
  match (applyInner cmd nowMs).run { store := t } with
  | (.ok events, b) => { result := .ok events, store := b.flush.store, writes := b.notes }
  | (.error e, b) => { result := .error e, store := b.store, writes := [] }

/-- The stores that runs reach from the empty one, each step of which `allowed` allows. -/
inductive Reach (allowed : Store → Command → Int → Prop) : Store → Prop
  | empty : Reach allowed ∅
  | step {t : Store} (cmd : Command) (nowMs : Int) :
      Reach allowed t → allowed t cmd nowMs → Reach allowed (apply cmd nowMs t).store

abbrev Reachable : Store → Prop := Reach fun _ _ _ => True

end Defing
