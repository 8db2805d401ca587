import Mathlib.Data.List.DropRight
import Defing.Core.Apply

/-!
# The login

The login endpoint on the leader, from the throttle to the session it writes.
Passwords are checked by argon2, and by a salted SHA-256 where an account is
still of the old format; both are taken as they come. The entries for the audit log
and the counters of the throttle are left out.
-/

namespace Defing

/-! ## Requests and answers -/

structure LoginReq where
  password : String
  username : Option String := none
  deriving DecidableEq

structure LoginResp where
  token : String
  role : Option String
  project : Option String := none
  username : Option String := none
  deriving DecidableEq

structure ApiErrorBody where
  code : String
  message : String
  detail : Option (List String) := none
  deriving DecidableEq

structure Refusal where
  status : Nat
  body : ApiErrorBody
  deriving DecidableEq

def ErrorKind.code : ErrorKind → String
  | .leaderRedirect => "ERR_LEADER_REDIRECT"
  | .notFound => "ERR_NOT_FOUND"
  | .validation => "ERR_VALIDATION"
  | .publishBlocked => "ERR_PUBLISH_BLOCKED"
  | .versionPruned => "ERR_VERSION_PRUNED"
  | .sessionInUse => "ERR_SESSION_IN_USE"
  | .sessionExpired => "ERR_SESSION_EXPIRED"
  | .forbidden => "ERR_FORBIDDEN"
  | .cycleRef => "ERR_CYCLE_REF"
  | .conflict => "ERR_CONFLICT"
  | .noDraft => "ERR_NO_DRAFT"
  | .limitExceeded => "ERR_LIMIT_EXCEEDED"
  | .internal => "ERR_INTERNAL"
  | .storage => "ERR_STORAGE"
  | .raft => "ERR_RAFT"
  | .crypto => "ERR_CRYPTO"

def Error.refusal (e : Error) : Refusal where
  status :=
    match e.kind with
    | .notFound => 404
    | .conflict | .noDraft | .sessionInUse => 409
    | .sessionExpired => 401
    | .forbidden => 403
    | .validation | .publishBlocked | .cycleRef => 422
    | .limitExceeded => 429
    | .leaderRedirect => 428
    | _ => 500
  body := { code := e.kind.code, message := e.message, detail := e.detail }

def tooManyAttempts : Refusal where
  status := 429
  body := { code := "ERR_TOO_MANY_ATTEMPTS", message := "登录尝试过多，请稍后再试" }

/-- The same for a wrong password and for an account that does not exist. -/
def badCredentials : Refusal where
  status := 401
  body := { code := "ERR_BAD_CREDENTIALS", message := "账号或密码错误" }

/-! ## Passwords and tokens -/

/-- The hash functions: the check of a password against a PHC string, false if that cannot be read, and the
hexadecimal SHA-256 of a text. -/
class Hashing where
  argon2 : (phc password : String) → Bool
  tokenHash : String → String

def verifyPassword [Hashing] (password stored legacySalt : String) : Bool :=
  if startsWith "$argon2" stored then Hashing.argon2 stored password
  else Hashing.tokenHash (legacySalt ++ password) = stored

def isWhitespace (c : Char) : Bool :=
  let n := c.toNat
  0x09 ≤ n && n ≤ 0x0d || n = 0x20 || n = 0x85 || n = 0xa0 || n = 0x1680 || 0x2000 ≤ n && n ≤ 0x200a ||
    n = 0x2028 || n = 0x2029 || n = 0x202f || n = 0x205f || n = 0x3000

def trim (s : String) : String := String.ofList ((s.toList.dropWhile isWhitespace).rdropWhile isWhitespace)

/-- What the leader has for a login: whether it throttles the client, its configuration and its clock, and
the session id and the secret that it draws. -/
structure Attempt where
  blocked : Bool
  adminPassword : String
  sessionTtlMs : Nat
  now : Int
  sessionId : String
  secret : String

def Attempt.expiresAt (a : Attempt) : Option Int := if 1000 ≤ a.sessionTtlMs then some (a.now + a.sessionTtlMs) else none

def Attempt.adminToken (a : Attempt) : String := "adm." ++ a.sessionId ++ "." ++ a.secret

def Attempt.paToken (a : Attempt) (username : String) : String := "pa." ++ username ++ "." ++ a.sessionId ++ "." ++ a.secret

def Attempt.gaToken (a : Attempt) (username : String) : String := "ga." ++ username ++ "." ++ a.sessionId ++ "." ++ a.secret

/-! ## The endpoint -/

section
variable [SerdeJson] [Hashing]

def tryRead {α : Type} (p : M (Option α)) (t : Store) : Option α := (p.run { store := t }).1.toOption.join

def getAdminPasswordHash : M (Option String) := loadMerged kAdminPw

def paLogin (a : Attempt) (password username : String) (t : Store) : Except Refusal LoginResp × Store :=
  match tryRead (getProjectAdmin username) t with
  | none => (.error badCredentials, t)
  | some acct =>
    if verifyPassword password acct.passwordHash acct.salt then
      let token := a.paToken username
      let o := apply (.multiPaSessionLogin username (Hashing.tokenHash token) a.now a.expiresAt "cli" a.sessionId) a.now t
      match o.result with
      | .ok _ =>
        (.ok { token, role := some "project_admin", project := some acct.project, username := some username }, o.store)
      -- an account deleted meanwhile is answered like a wrong password
      | .error e => (.error (if e.kind = .notFound then badCredentials else e.refusal), o.store)
    else (.error badCredentials, t)

def gaLogin (a : Attempt) (password username : String) (t : Store) : Except Refusal LoginResp × Store :=
  match tryRead (getGlobalAdmin username) t with
  | none => (.error badCredentials, t)
  | some acct =>
    if verifyPassword password acct.passwordHash acct.salt then
      let token := a.gaToken username
      let o := apply (.multiGaSessionLogin username (Hashing.tokenHash token) a.now a.expiresAt "cli" a.sessionId) a.now t
      match o.result with
      | .ok _ => (.ok { token, role := some "global_admin", username := some username }, o.store)
      | .error e => (.error (if e.kind = .notFound then badCredentials else e.refusal), o.store)
    else (.error badCredentials, t)

def adminLogin (a : Attempt) (password : String) (t : Store) : Except Refusal LoginResp × Store :=
  let ok :=
    match tryRead getAdminPasswordHash t with
    | some hash => verifyPassword password hash ""
    | none => password = a.adminPassword
  if ok then
    let token := a.adminToken
    let o := apply (.multiSessionLogin (Hashing.tokenHash token) a.now a.expiresAt a.sessionId) a.now t
    match o.result with
    | .ok _ => (.ok { token, role := some "admin" }, o.store)
    | .error e => (.error e.refusal, o.store)
  else (.error badCredentials, t)

/-- No name, or a blank one, is the super administrator; any other is looked up among the global administrators
first. -/
def login (a : Attempt) (req : LoginReq) (t : Store) : Except Refusal LoginResp × Store :=
  if a.blocked then (.error tooManyAttempts, t)
  else
    match (req.username.map trim).filter (· ≠ "") with
    | some username =>
      if (tryRead (getGlobalAdmin username) t).isSome then gaLogin a req.password username t
      else paLogin a req.password username t
    | none => adminLogin a req.password t

end

end Defing
