import Defing.State.Names

/-!
# Who a request comes from

The form of a token says which session it is one of. Whose it is, the session
says that is stored.
-/

namespace Defing

def dotParts (s : String) : List String := (s.toList.splitOn '.').map String.ofList

def bearer (authHeader : Option String) : Option String := authHeader.bind (stripPrefix "Bearer ")

section
variable [SerdeJson]

def getSessionWith (sessionId : String) : M (Option AdminSession) := loadMerged (sessionKeyWith sessionId)

def getPaSession (username : String) : M (Option AdminSession) := loadMerged (paSessionKey username)

def getPaSessionWith (username sessionId : String) : M (Option AdminSession) :=
  loadMerged (paSessionKeyWith username sessionId)

def getGaSessionWith (username sessionId : String) : M (Option AdminSession) :=
  loadMerged (gaSessionKeyWith username sessionId)

/-- The session that a token belongs to by its form; tokens without a session id are those of old logs. -/
def sessionOfToken (token : String) (t : Store) : Option AdminSession :=
  match stripPrefix "pa." token, stripPrefix "ga." token, stripPrefix "adm." token with
  | some rest, _, _ =>
    match dotParts rest with
    | username :: sid :: _ :: _ => tryRead (getPaSessionWith username sid) t
    | parts => tryRead (getPaSession (parts.headD "")) t
  | none, some rest, _ =>
    match dotParts rest with
    | username :: sid :: _ :: _ => tryRead (getGaSessionWith username sid) t
    | _ => none
  | none, none, some rest =>
    match dotParts rest with
    | sid :: _ :: _ => tryRead (getSessionWith sid) t
    | _ => tryRead getSession t
  | none, none, none => tryRead getSession t

def AdminSession.notExpired (s : AdminSession) (now : Int) : Bool := s.expiresAt.all fun e => now < e

variable [Hashing]

def resolvePrincipal (now : Int) (authHeader : Option String) (t : Store) : Option Principal :=
  (bearer authHeader).bind fun token =>
    (sessionOfToken token t).bind fun s =>
      if s.tokenHash = Hashing.tokenHash token ∧ s.notExpired now then some s.principal else none

variable {t : Store} {now : Int} {authHeader : Option String} {p : Principal}

omit [Hashing] in
theorem sessionOfToken_stored {token : String} {s : AdminSession} (h : sessionOfToken token t = some s) :
    ∃ k, sessionAt t k = some s := by
  have hread : ∀ k, tryRead (loadMerged k : M (Option AdminSession)) t = some s → ∃ k, sessionAt t k = some s :=
    fun k hk => ⟨k, (tryRead_loadMerged k t).symm.trans hk⟩
  unfold sessionOfToken at h
  split at h
  · split at h <;> exact hread _ h
  · split at h
    · exact hread _ h
    · cases h
  · split at h <;> exact hread _ h
  · exact hread _ h

theorem resolvePrincipal_session (h : resolvePrincipal now authHeader t = some p) :
    ∃ token k s, bearer authHeader = some token ∧ sessionAt t k = some s ∧ s.tokenHash = Hashing.tokenHash token ∧
      s.notExpired now ∧ s.principal = p := by
  obtain ⟨token, htoken, h⟩ := Option.bind_eq_some_iff.mp h
  obtain ⟨s, hs, h⟩ := Option.bind_eq_some_iff.mp h
  obtain ⟨k, hk⟩ := sessionOfToken_stored hs
  split at h
  · rename_i hc
    exact ⟨token, k, s, htoken, hk, hc.1, hc.2, Option.some.inj h⟩
  · cases h

end

end Defing
