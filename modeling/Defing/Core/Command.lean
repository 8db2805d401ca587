import Defing.Core.Model

/-! # Commands: the payload of the log -/

namespace Defing

structure DraftUpdateItem where
  group : String
  key : String
  value : Value
  deriving DecidableEq, Repr

/-- A binding of an item to a shared one; an empty `sharedKey` unbinds it. -/
structure SharedBinding where
  group : String
  key : String
  sharedKey : String
  deriving DecidableEq, Repr

inductive Command
  | projectCreate (name : String) (operator : String) (ts : Int) (cloneFrom : Option String)
  | projectDelete (id : ProjectId) (operator : String)
  | branchCreate (project : ProjectId) (name : BranchName) (source : Option BranchName)
      (operator : String) (ts : Int)
  | branchDelete (project : ProjectId) (name : BranchName) (operator : String)
  | structureDraftSet (project : ProjectId) (baseVersion : Nat) (groups : List GroupDef)
      (operator : String)
  | publishStructure (project : ProjectId) (comment requestId operator : String) (ts : Int)
      (policy : PublishPolicy)
  | draftUpdate (project : ProjectId) (branch : BranchName) (updates : List DraftUpdateItem)
      (deletes : List (String × String)) (sharedBindings : List SharedBinding) (operator : String)
      (ts : Int) (expectedDraftRev : Option Nat)
  | publish (project : ProjectId) (branch : BranchName) (comment requestId operator : String)
      (ts : Int) (policy : PublishPolicy)
  | rollback (project : ProjectId) (branch : BranchName) (toVersion : Nat)
      (comment requestId operator : String) (ts : Int)
  | sharedDraftUpdate (item : SharedItem) (operator : String)
  | sharedPublish (comment requestId operator : String) (ts : Int) (cascade : SharedCascadeMode)
      (policy : PublishPolicy)
  | sharedDelete (key : String) (operator : String)
  | sessionLogin (tokenHash : String) (issuedAt : Int) (expiresAt : Option Int)
  | sessionLogout
  | sessionHeartbeat (expiresAt : Option Int)
  | projectAdminCreate (project : ProjectId) (username salt passwordHash : String) (ts : Int)
  | projectAdminDelete (username : String)
  | projectAdminSetPassword (username salt passwordHash : String)
  | paSessionLogin (username tokenHash : String) (issuedAt : Int) (expiresAt : Option Int)
      (deviceId : String)
  | paSessionLogout (username : String)
  | paSessionHeartbeat (username : String) (expiresAt : Option Int)
  | adminSetPassword (passwordHash : String)
  | multiSessionLogin (tokenHash : String) (issuedAt : Int) (expiresAt : Option Int)
      (sessionId : String)
  | multiSessionLogout (sessionId : String)
  | multiSessionHeartbeat (sessionId : String) (expiresAt : Option Int)
  | multiPaSessionLogin (username tokenHash : String) (issuedAt : Int) (expiresAt : Option Int)
      (deviceId sessionId : String)
  | multiPaSessionLogout (username sessionId : String)
  | multiPaSessionHeartbeat (username sessionId : String) (expiresAt : Option Int)
  | multiSessionLogoutAll
  | multiPaSessionLogoutAll (username : String)
  | globalAdminCreate (username salt passwordHash : String) (ts : Int)
  | globalAdminDelete (username : String)
  | globalAdminSetPassword (username salt passwordHash : String)
  | multiGaSessionLogin (username tokenHash : String) (issuedAt : Int) (expiresAt : Option Int)
      (deviceId sessionId : String)
  | multiGaSessionLogout (username sessionId : String)
  | multiGaSessionHeartbeat (username sessionId : String) (expiresAt : Option Int)
  | multiGaSessionLogoutAll (username : String)
  | globalAdminSessionsRevokeAll
  | auditAppend (entry : AuditEntry)
  | rotateMasterKey (kek kekEnc : List UInt8)
  | grayPublish (project : ProjectId) (branch : BranchName) (rule : GrayRule)
      (comment requestId operator : String) (ts : Int) (policy : PublishPolicy)
  | grayPromote (project : ProjectId) (branch : BranchName) (comment requestId operator : String)
      (ts : Int)
  | grayAbort (project : ProjectId) (branch : BranchName) (comment requestId operator : String)
      (ts : Int)
  | projectTokenCreate (project : ProjectId) (name tokenHash operator : String) (ts : Int)
  | projectTokenRevoke (project : ProjectId) (tokenId : String)
  deriving DecidableEq, Repr

end Defing
