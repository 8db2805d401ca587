import Defing.Core.Project

/-! # Commands on sessions, accounts, tokens and the audit log -/

namespace Defing

open KV (Prog)

variable [SerdeJson]

/-! ## Sessions of the super administrator -/

def applySessionLogin (tokenHash : String) (issuedAt : Int) (expiresAt : Option Int) :
    M (List PublishEvent) := do
  let current ← getSession
  ensure (current = none) (Error.new .sessionInUse "已有管理员在线")
  savePending sessionKey
    ({ tokenHash, issuedAt, expiresAt, deviceId := "cli", principal := .admin } : AdminSession)
  pure []

def applySessionLogout : M (List PublishEvent) := do
  deletePending sessionKey
  pure []

def heartbeat (key : String) (expiresAt : Option Int) (missing : String) : M (List PublishEvent) := do
  let session : AdminSession ← okOr (← loadMerged key) (Error.new .sessionExpired missing)
  savePending key { session with expiresAt }
  pure []

def applySessionHeartbeat (expiresAt : Option Int) : M (List PublishEvent) :=
  heartbeat sessionKey expiresAt "未登录"

def applyMultiSessionLogin (tokenHash : String) (issuedAt : Int) (expiresAt : Option Int)
    (sessionId : String) : M (List PublishEvent) := do
  savePending (sessionKeyWith sessionId)
    ({ tokenHash, issuedAt, expiresAt, deviceId := "cli", principal := .admin } : AdminSession)
  pure []

def applyMultiSessionLogout (sessionId : String) : M (List PublishEvent) := do
  deletePending (sessionKeyWith sessionId)
  pure []

def applyMultiSessionHeartbeat (sessionId : String) (expiresAt : Option Int) : M (List PublishEvent) :=
  heartbeat (sessionKeyWith sessionId) expiresAt "会话不存在或已过期"

def applyMultiSessionLogoutAll : M (List PublishEvent) := do
  deletePending sessionKey
  let rows ← getPrefixMerged kSessionPrefix
  deleteRows rows
  pure []

def applyAdminSetPassword (passwordHash : String) : M (List PublishEvent) := do
  savePending kAdminPw passwordHash
  pure []

/-! ## Project administrators -/

def eqIgnoreAsciiCase (a b : String) : Bool := a.toList.map Char.toLower = b.toList.map Char.toLower

/-- 2 to 64 letters, digits, underscores and dashes, and not `admin` in any case. -/
def validAccountUsername (name : String) : Bool :=
  name ≠ "" && !eqIgnoreAsciiCase name "admin" && name.utf8ByteSize ≤ 64 &&
    (name.toList.all fun c => c.isAlphanum || c = '_' || c = '-') && 2 ≤ name.utf8ByteSize

def usernameTaken (stem username : String) : M Bool := do
  let rows ← getPrefixMerged stem
  pure (rows.any fun row => (stripPrefix stem row.1).any fun u => eqIgnoreAsciiCase u username)

def projectAdminUsernameTaken (username : String) : M Bool := usernameTaken kPaAccount username

def globalAdminUsernameTaken (username : String) : M Bool := usernameTaken kGaAccount username

def applyProjectAdminCreate (project : ProjectId) (username salt passwordHash : String) (nowMs : Int) :
    M (List PublishEvent) := do
  ensure (validAccountUsername username)
    (Error.validation "用户名须为 2-64 位 [A-Za-z0-9_-] 且不可为 admin（不区分大小写）")
  let owner : Option Project ← load (projectKey project)
  ensure (owner ≠ none) (Error.new .notFound s!"项目 {project} 不存在")
  let existing : Option ProjectAdminAccount ← load (projectAdminKey username)
  ensure (existing = none) (Error.conflict "账号已存在")
  let taken ← globalAdminUsernameTaken username
  ensure (taken = false) (Error.conflict "用户名已被全局管理员占用")
  savePending (projectAdminKey username)
    ({ username, project, salt, passwordHash, createdAt := nowMs } : ProjectAdminAccount)
  pure []

def applyProjectAdminDelete (username : String) : M (List PublishEvent) := do
  let acct : Option ProjectAdminAccount ← load (projectAdminKey username)
  ensure (acct ≠ none) (Error.new .notFound "账号不存在")
  deleteAllPaSessions username
  deletePending (projectAdminKey username)
  pure []

def applyProjectAdminSetPassword (username salt passwordHash : String) : M (List PublishEvent) := do
  let acct : ProjectAdminAccount ← okOr (← load (projectAdminKey username)) (Error.new .notFound "账号不存在")
  savePending (projectAdminKey username) { acct with salt, passwordHash }
  deleteAllPaSessions username
  pure []

def applyPaSessionLogin (username tokenHash : String) (issuedAt : Int) (expiresAt : Option Int)
    (deviceId : String) : M (List PublishEvent) := do
  let current : Option AdminSession ← load (paSessionKey username)
  ensure (current = none) (Error.new .sessionInUse "该账号已有会话在线")
  let acct : ProjectAdminAccount ← okOr (← load (projectAdminKey username)) (Error.new .notFound "账号不存在")
  savePending (paSessionKey username)
    ({ tokenHash, issuedAt, expiresAt, deviceId,
       principal := .projectAdmin username acct.project } : AdminSession)
  pure []

def applyPaSessionLogout (username : String) : M (List PublishEvent) := do
  deletePending (paSessionKey username)
  pure []

def applyPaSessionHeartbeat (username : String) (expiresAt : Option Int) : M (List PublishEvent) := do
  let session : AdminSession ← okOr (← load (paSessionKey username)) (Error.new .sessionExpired "会话不存在")
  savePending (paSessionKey username) { session with expiresAt }
  pure []

def applyMultiPaSessionLogin (username tokenHash : String) (issuedAt : Int) (expiresAt : Option Int)
    (deviceId sessionId : String) : M (List PublishEvent) := do
  let acct ← okOr (← getProjectAdmin username) (Error.new .notFound "账号不存在")
  savePending (paSessionKeyWith username sessionId)
    ({ tokenHash, issuedAt, expiresAt, deviceId,
       principal := .projectAdmin username acct.project } : AdminSession)
  pure []

def applyMultiPaSessionLogout (username sessionId : String) : M (List PublishEvent) := do
  deletePending (paSessionKeyWith username sessionId)
  pure []

def applyMultiPaSessionHeartbeat (username sessionId : String) (expiresAt : Option Int) :
    M (List PublishEvent) :=
  heartbeat (paSessionKeyWith username sessionId) expiresAt "会话不存在或已过期"

def applyMultiPaSessionLogoutAll (username : String) : M (List PublishEvent) := do
  deleteAllPaSessions username
  pure []

/-! ## Global administrators -/

def deleteAllGaSessions (username : String) : M Unit := do
  let rows ← getPrefixMerged (gaSessionPrefix username)
  deleteRows rows

def applyGlobalAdminCreate (username salt passwordHash : String) (nowMs : Int) :
    M (List PublishEvent) := do
  ensure (validAccountUsername username)
    (Error.validation "用户名须为 2-64 位 [A-Za-z0-9_-] 且不可为 admin（不区分大小写）")
  let existing : Option GlobalAdminAccount ← load (globalAdminKey username)
  ensure (existing = none) (Error.conflict "账号已存在")
  let taken ← projectAdminUsernameTaken username
  ensure (taken = false) (Error.conflict "用户名已被项目管理员占用")
  savePending (globalAdminKey username)
    ({ username, salt, passwordHash, createdAt := nowMs } : GlobalAdminAccount)
  pure []

def applyGlobalAdminDelete (username : String) : M (List PublishEvent) := do
  let acct : Option GlobalAdminAccount ← load (globalAdminKey username)
  ensure (acct ≠ none) (Error.new .notFound "账号不存在")
  deletePending (globalAdminKey username)
  deleteAllGaSessions username
  pure []

def applyGlobalAdminSetPassword (username salt passwordHash : String) : M (List PublishEvent) := do
  let acct : GlobalAdminAccount ← okOr (← load (globalAdminKey username)) (Error.new .notFound "账号不存在")
  savePending (globalAdminKey username) { acct with salt, passwordHash }
  deleteAllGaSessions username
  pure []

def applyMultiGaSessionLogin (username tokenHash : String) (issuedAt : Int) (expiresAt : Option Int)
    (deviceId sessionId : String) : M (List PublishEvent) := do
  let acct ← okOr (← getGlobalAdmin username) (Error.new .notFound "账号不存在")
  savePending (gaSessionKeyWith username sessionId)
    ({ tokenHash, issuedAt, expiresAt, deviceId, principal := .globalAdmin acct.username } : AdminSession)
  pure []

def applyMultiGaSessionLogout (username sessionId : String) : M (List PublishEvent) := do
  deletePending (gaSessionKeyWith username sessionId)
  pure []

def applyMultiGaSessionHeartbeat (username sessionId : String) (expiresAt : Option Int) :
    M (List PublishEvent) :=
  heartbeat (gaSessionKeyWith username sessionId) expiresAt "会话不存在或已过期"

def applyMultiGaSessionLogoutAll (username : String) : M (List PublishEvent) := do
  deleteAllGaSessions username
  pure []

def applyGlobalAdminSessionsRevokeAll : M (List PublishEvent) := do
  let rows ← getPrefixMerged kGaAccount
  rows.forM fun row =>
    match stripPrefix kGaAccount row.1 with
    | some u => deleteAllGaSessions u
    | none => pure ()
  pure []

/-! ## Project tokens -/

def validTokenName (name : String) : Bool :=
  name ≠ "" && name.utf8ByteSize ≤ 64 &&
    name.toList.all fun c => c.isAlphanum || c = '.' || c = '_' || c = '-'

def applyProjectTokenCreate (project : ProjectId) (name tokenHash operator : String) (nowMs : Int) :
    M (List PublishEvent) := do
  ensure (validTokenName name) (Error.validation "token 名称须为 1-64 位 [A-Za-z0-9._-]")
  let owner : Option Project ← load (projectKey project)
  ensure (owner ≠ none) (Error.new .notFound s!"项目 {project} 不存在")
  let existing : Option ProjectTokenRecord ← load (dataTokenKey tokenHash)
  if existing.isSome then
    pure []
  else do
    let rows ← getPrefixMerged kDataToken
    ensure (¬ (parsed rows).any fun (rec : ProjectTokenRecord) => rec.project = project ∧ rec.name = name)
      (Error.conflict "该项目下 token 名称已存在")
    savePending (dataTokenKey tokenHash)
      ({ id := String.ofList (tokenHash.toList.take 16), name, project, hash := tokenHash,
         createdAt := nowMs.toNat, createdBy := operatorId operator, revoked := false } : ProjectTokenRecord)
    pure []

def tokenRows (project : ProjectId) (tokenId : String) (rows : List (String × Stored)) :
    List (String × Stored) :=
  rows.filter fun row =>
    match (Codec.decode row.2 : Option ProjectTokenRecord) with
    | some rec => rec.project = project ∧ rec.id = tokenId
    | none => false

def applyProjectTokenRevoke (project : ProjectId) (tokenId : String) : M (List PublishEvent) := do
  let rows ← getPrefixMerged kDataToken
  let row ← okOr (tokenRows project tokenId rows).head? (Error.new .notFound "token 不存在")
  let rec : ProjectTokenRecord ← okOr (← load row.1) (Error.new .notFound "token 不存在")
  if rec.revoked then
    pure []
  else do
    savePending row.1 { rec with revoked := true }
    pure []

/-! ## Audit log -/

def applyAuditAppend (entry : AuditEntry) : M (List PublishEvent) := do
  let prev : Option Nat ← loadMerged kAuditSeq
  let seq := prev.getD 0 + 1
  savePending (auditKey seq) { entry with seq }
  savePending kAuditSeq seq
  pure []

def applyRotateMasterKey : M (List PublishEvent) := pure []

end Defing
