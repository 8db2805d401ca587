import Defing.State.Sessions
import Defing.Api.Principal

/-!
# Logins while passwords change

A login checks the password on what some node has of the log, and has its
session written later. The commands that change or delete accounts come at any
point between, and the super administrator's sessions are revoked by a command of
their own.
-/

namespace Defing

section
variable [SerdeJson]

/-! ## The two steps of a login -/

section
variable [Hashing]

/-- The check of the password; of no account is the super administrator. -/
def verifiesLogin (adminPassword password : String) : Option Account → Store → Bool
  | none, t =>
    match tryRead getAdminPasswordHash t with
    | some hash => verifyPassword password hash ""
    | none => password = adminPassword
  | some (.project u), t =>
    (tryRead (getProjectAdmin u) t).any fun acct => verifyPassword password acct.passwordHash acct.salt
  | some (.global u), t =>
    (tryRead (getGlobalAdmin u) t).any fun acct => verifyPassword password acct.passwordHash acct.salt

def Attempt.token (a : Attempt) : Option Account → String
  | none => a.adminToken
  | some (.project u) => a.paToken u
  | some (.global u) => a.gaToken u

def Attempt.sessionCommand (a : Attempt) (acct : Option Account) : Command :=
  let hash := Hashing.tokenHash (a.token acct)
  match acct with
  | none => .multiSessionLogin hash a.now a.expiresAt a.sessionId
  | some (.project u) => .multiPaSessionLogin u hash a.now a.expiresAt "cli" a.sessionId
  | some (.global u) => .multiGaSessionLogin u hash a.now a.expiresAt "cli" a.sessionId

section
variable (a : Attempt) (acct : Option Account)

omit [SerdeJson] in
theorem issues_sessionCommand : issues (a.sessionCommand acct) = some (Hashing.tokenHash (a.token acct)) := by
  match acct with
  | none => rfl
  | some (.project u) => rfl
  | some (.global u) => rfl

omit [SerdeJson] in
theorem logsIn_sessionCommand : logsIn (a.sessionCommand acct) = acct := by
  match acct with
  | none => rfl
  | some (.project u) => rfl
  | some (.global u) => rfl

end

section
variable {a : Attempt} {password u : String} {req : LoginReq} {t t' : Store} {resp : LoginResp}

def LogsIn (a : Attempt) (password : String) (t : Store) (resp : LoginResp) (t' : Store) : Prop :=
  ∃ acct events, verifiesLogin a.adminPassword password acct t ∧ resp.token = a.token acct ∧
    (apply (a.sessionCommand acct) a.now t).result = .ok events ∧ t' = (apply (a.sessionCommand acct) a.now t).store

theorem paLogin_ok (h : paLogin a password u t = (.ok resp, t')) : LogsIn a password t resp t' := by
  unfold paLogin at h
  split at h
  · cases h
  · rename_i acct hacct
    split at h
    · rename_i hok
      dsimp only at h
      split at h
      · rename_i events hev
        cases h
        refine ⟨some (.project u), events, ?_, rfl, hev, rfl⟩
        simp only [verifiesLogin, hacct, Option.any_some, hok]
      · cases h
    · cases h

theorem gaLogin_ok (h : gaLogin a password u t = (.ok resp, t')) : LogsIn a password t resp t' := by
  unfold gaLogin at h
  split at h
  · cases h
  · rename_i acct hacct
    split at h
    · rename_i hok
      dsimp only at h
      split at h
      · rename_i events hev
        cases h
        refine ⟨some (.global u), events, ?_, rfl, hev, rfl⟩
        simp only [verifiesLogin, hacct, Option.any_some, hok]
      · cases h
    · cases h

theorem adminLogin_ok (h : adminLogin a password t = (.ok resp, t')) : LogsIn a password t resp t' := by
  by_cases hok : verifiesLogin a.adminPassword password none t
  · unfold adminLogin at h
    dsimp only at h
    erw [if_pos hok] at h
    split at h
    · rename_i events hev
      cases h
      exact ⟨none, events, hok, rfl, hev, rfl⟩
    · cases h
  · have he : adminLogin a password t = (.error badCredentials, t) := if_neg hok
    rw [he] at h
    cases h

theorem login_ok (h : login a req t = (.ok resp, t')) : LogsIn a req.password t resp t' := by
  unfold login at h
  split at h
  · cases h
  · split at h
    · split at h
      · exact gaLogin_ok h
      · exact paLogin_ok h
    · exact adminLogin_ok h

end

end

/-! ## Interleavings -/

/-- A login whose password was right: the account, and how much of the log had been applied where it was checked. -/
structure VerifiedLogin where
  account : Option Account
  seen : Nat

structure IssuedToken where
  login : VerifiedLogin
  token : String

structure LoginNode where
  log : List (Command × Int)
  verified : List VerifiedLogin
  issued : List IssuedToken

def replaces (t : Store) : Command → Option Account → Prop
  | .adminSetPassword _, acct => acct = none
  | .projectAdminSetPassword u .., acct => acct = some (.project u)
  | .projectAdminDelete u, acct => acct = some (.project u)
  | .projectDelete id _, acct => ∃ u a, acct = some (.project u) ∧ adminOf t u = some a ∧ a.project = id
  | .globalAdminSetPassword u .., acct => acct = some (.global u)
  | .globalAdminDelete u, acct => acct = some (.global u)
  | _, _ => False

section

def LoginNode.store (s : LoginNode) : Store := runLog s.log

/-- The password that a login had checked is not the account's any more, or the account has been deleted. -/
def CutOff (log : List (Command × Int)) (login : VerifiedLogin) : Prop :=
  ∃ past cmd now later events, log = past ++ (cmd, now) :: later ∧ login.seen ≤ past.length ∧
    (apply cmd now (runLog past)).result = .ok events ∧ replaces (runLog past) cmd login.account

variable [Hashing]

/-- The tokens that are drawn are new; the command of a login may be applied again. -/
inductive LoginStep : LoginNode → LoginNode → Prop
  | verify {s : LoginNode} {login : VerifiedLogin} (adminPassword password : String) (hseen : login.seen ≤ s.log.length)
      (h : verifiesLogin adminPassword password login.account (runLog (s.log.take login.seen))) :
      LoginStep s { s with verified := login :: s.verified }
  | issue {s : LoginNode} {login : VerifiedLogin} {events : List PublishEvent} (a : Attempt) (hv : login ∈ s.verified)
      (hnew : ∀ x ∈ s.issued, Hashing.tokenHash x.token = Hashing.tokenHash (a.token login.account) →
        x = { login, token := a.token login.account })
      (hok : (apply (a.sessionCommand login.account) a.now s.store).result = .ok events) :
      LoginStep s { s with
        log := s.log ++ [(a.sessionCommand login.account, a.now)]
        issued := { login, token := a.token login.account } :: s.issued }
  | refused {s : LoginNode} {login : VerifiedLogin} {e : Error} (a : Attempt) (hv : login ∈ s.verified)
      (herr : (apply (a.sessionCommand login.account) a.now s.store).result = .error e) :
      LoginStep s { s with log := s.log ++ [(a.sessionCommand login.account, a.now)] }
  | command {s : LoginNode} (cmd : Command) (now : Int) (h : issues cmd = none) :
      LoginStep s { s with log := s.log ++ [(cmd, now)] }

/-- The step issues no token for an outdated password, and the super administrator has no session when a new
password is set. -/
structure UpToDate (s s' : LoginNode) : Prop where
  issue : ∀ x, s'.issued = x :: s.issued → ¬ CutOff s.log x.login
  adminSetPassword : ∀ hash now, s'.log = s.log ++ [(.adminSetPassword hash, now)] →
    ∀ k r, sessionAt s.store k = some r → r.principal ≠ .admin

inductive LoginRun (allowed : LoginNode → LoginNode → Prop) : LoginNode → Prop
  | start : LoginRun allowed { log := [], verified := [], issued := [] }
  | step {s s' : LoginNode} (h : LoginRun allowed s) (hstep : LoginStep s s') (ha : allowed s s') : LoginRun allowed s'

/-! ## Sessions are vouched for -/

/-- On every node each session is of a token that has been issued, for a login that is not cut off there. -/
structure Vouched (s : LoginNode) : Prop where
  sessions : ∀ n k r, sessionAt (runLog (s.log.take n)) k = some r → ∃ x ∈ s.issued,
    Hashing.tokenHash x.token = r.tokenHash ∧ x.login.account = r.principal.account ∧ ¬ CutOff (s.log.take n) x.login
  distinct : ∀ x ∈ s.issued, ∀ y ∈ s.issued, Hashing.tokenHash x.token = Hashing.tokenHash y.token → x = y

variable {s s' : LoginNode} {login : VerifiedLogin} {log : List (Command × Int)} {cmd : Command} {now : Int}

omit [Hashing] in
theorem CutOff.of_append (h : CutOff (log ++ [(cmd, now)]) login) :
    CutOff log login ∨ (∃ events, (apply cmd now (runLog log)).result = .ok events) ∧ replaces (runLog log) cmd login.account := by
  obtain ⟨past, c, ts, later, events, he, hseen, hok, hr⟩ := h
  rcases List.eq_nil_or_concat later with rfl | ⟨later, e, rfl⟩
  · obtain ⟨rfl, h⟩ := List.append_inj' he rfl
    cases h
    exact .inr ⟨⟨events, hok⟩, hr⟩
  · rw [List.concat_eq_append, ← List.cons_append, ← List.append_assoc] at he
    exact .inl ⟨past, c, ts, later, events, (List.append_inj' he rfl).1, hseen, hok, hr⟩

omit [Hashing] in
/-- A replaced password or a deleted account takes its sessions along, but for the super administrator's. -/
theorem revokes_of_replaces {t : Store} {acct : Account} (h : replaces t cmd (some acct)) : revokes t cmd acct := by
  cases cmd <;> try exact h.elim
  case adminSetPassword => cases h
  case projectDelete =>
    obtain ⟨u, a, e, ha, hp⟩ := h
    exact ⟨u, a, Option.some.inj e, ha, hp⟩
  all_goals exact Option.some.inj h

omit [Hashing] in
theorem adminSetPassword_of_replaces {t : Store} (h : replaces t cmd none) : ∃ hash, cmd = .adminSetPassword hash := by
  cases cmd <;> try exact h.elim
  case adminSetPassword hash => exact ⟨hash, rfl⟩
  case projectDelete =>
    obtain ⟨u, a, e, -⟩ := h
    cases e
  all_goals cases h

omit [Hashing] in
theorem not_replaces_of_issues {t : Store} {hash : String} {acct : Option Account} (h : issues cmd = some hash) :
    ¬ replaces t cmd acct := by
  cases cmd <;> first | exact id | cases h

omit [SerdeJson] [Hashing] in
theorem admin_of_account_none {p : Principal} (h : p.account = none) : p = .admin := by
  cases p with
  | admin => rfl
  | projectAdmin u project => cases h
  | globalAdmin u => cases h

omit [Hashing] in
theorem Reachable.sessionsBacked {t : Store} (h : Reachable t) : SessionsBacked t := by
  induction h with
  | empty => exact sessionsBacked_empty
  | step cmd now hr _ ih => exact sessionsBacked_apply (wellPlaced_of_reach hr) ih cmd now

omit [Hashing] in
/-- A session from before the command is of a login that the command does not cut off. -/
theorem not_cutOff_append {k : String} {r r₀ : AdminSession} (hn : ¬ CutOff log login)
    (h : sessionAt (apply cmd now (runLog log)).store k = some r) (h₀ : sessionAt (runLog log) k = some r₀)
    (hp : r.principal = r₀.principal) (hacct : login.account = r₀.principal.account)
    (hadmin : ∀ hash, cmd = .adminSetPassword hash → ∀ k r, sessionAt (runLog log) k = some r → r.principal ≠ .admin) :
    ¬ CutOff (log ++ [(cmd, now)]) login := by
  intro hc
  have hreach := reachable_runLog log
  have ht := wellPlaced_of_reach hreach
  have hw := wellPlaced_apply ht cmd now
  rcases hc.of_append with hc | ⟨⟨events, hok⟩, hr⟩
  · exact hn hc
  · rw [hacct, ← hp] at hr
    cases hpa : r.principal.account with
    | none =>
      rw [hpa] at hr
      obtain ⟨hash, hcmd⟩ := adminSetPassword_of_replaces hr
      exact hadmin hash hcmd k r₀ h₀ (by rw [← hp, admin_of_account_none hpa])
    | some acct =>
      rw [hpa] at hr
      rcases credential_apply ht cmd now with ⟨-, hs⟩ | ⟨⟨e, he⟩, -⟩
      · exact revoked hw (sessionsBacked_apply ht hreach.sessionsBacked cmd now) hs (revokes_of_replaces hr) ⟨k, r, h, hpa⟩
      · rw [hok] at he
        cases he

/-- One more command, which issues no token that is not vouched for. -/
theorem Vouched.append (hv : Vouched s) {verified : List VerifiedLogin} {issued : List IssuedToken}
    (hsub : ∀ x ∈ s.issued, x ∈ issued)
    (hdistinct : ∀ x ∈ issued, ∀ y ∈ issued, Hashing.tokenHash x.token = Hashing.tokenHash y.token → x = y)
    (hissue : ∀ hash events, issues cmd = some hash → (apply cmd now s.store).result = .ok events → ∃ x ∈ issued,
      Hashing.tokenHash x.token = hash ∧ x.login.account = logsIn cmd ∧ ¬ CutOff (s.log ++ [(cmd, now)]) x.login)
    (hadmin : ∀ hash, cmd = .adminSetPassword hash → ∀ k r, sessionAt s.store k = some r → r.principal ≠ .admin) :
    Vouched { log := s.log ++ [(cmd, now)], verified, issued } where
  distinct := hdistinct
  sessions n k r h := by
    by_cases hn : n ≤ s.log.length
    · dsimp only at h ⊢
      rw [List.take_append_of_le_length hn] at h ⊢
      obtain ⟨x, hx, hrest⟩ := hv.sessions n k r h
      exact ⟨x, hsub x hx, hrest⟩
    · dsimp only at h ⊢
      rw [List.take_of_length_le (by simp; omega)] at h ⊢
      have hbefore : ∀ k r, sessionAt s.store k = some r → ∃ x ∈ s.issued, Hashing.tokenHash x.token = r.tokenHash ∧
          x.login.account = r.principal.account ∧ ¬ CutOff s.log x.login := by
        intro k r h
        have := hv.sessions s.log.length k r
        rw [List.take_length] at this
        exact this h
      have ht := wellPlaced_of_reach (reachable_runLog s.log)
      have hw := wellPlaced_apply ht cmd now
      have hstore : runLog (s.log ++ [(cmd, now)]) = (apply cmd now s.store).store := by
        simp [runLog, LoginNode.store]
      rw [hstore] at h
      have hkeep : ∀ r₀, sessionAt s.store k = some r₀ → r.principal = r₀.principal → r.tokenHash = r₀.tokenHash →
          ∃ x ∈ issued, Hashing.tokenHash x.token = r.tokenHash ∧ x.login.account = r.principal.account ∧
            ¬ CutOff (s.log ++ [(cmd, now)]) x.login := by
        intro r₀ h₀ hp hh
        obtain ⟨x, hx, hhash, hacct, hcut⟩ := hbefore k r₀ h₀
        exact ⟨x, hsub x hx, hhash.trans hh.symm, hacct.trans (by rw [hp]), not_cutOff_append hcut h h₀ hp hacct hadmin⟩
      rcases credential_apply ht cmd now with ⟨⟨events, hok⟩, hs⟩ | ⟨-, hsame⟩
      · rcases hs.tokenHash ht hw h with ⟨r₀, h₀, hp, hh⟩ | ⟨hhash, hacct⟩
        · exact hkeep r₀ h₀ hp hh
        · obtain ⟨x, hx, hh, ha, hcut⟩ := hissue _ events hhash hok
          exact ⟨x, hx, hh, ha.trans hacct.symm, hcut⟩
      · refine hkeep r ?_ rfl rfl
        exact (entity_congr (hsame k (credential_of_session hw h))).symm.trans h

theorem Vouched.step (hv : Vouched s) (h : LoginStep s s') (ha : UpToDate s s') : Vouched s' := by
  cases h with
  | verify => exact ⟨hv.sessions, hv.distinct⟩
  | @issue login events a hmem hnew hok =>
    have hcut := ha.issue { login, token := a.token login.account } rfl
    refine hv.append (fun x hx => List.mem_cons_of_mem _ hx) ?_ ?_ ?_
    · intro x hx y hy e
      rcases List.mem_cons.mp hx with rfl | hx <;> rcases List.mem_cons.mp hy with rfl | hy
      · rfl
      · exact (hnew y hy e.symm).symm
      · exact hnew x hx e
      · exact hv.distinct x hx y hy e
    · intro hash _ hhash _
      refine ⟨_, List.mem_cons_self, ?_, ?_, fun hc => ?_⟩
      · rw [issues_sessionCommand] at hhash
        exact Option.some.inj hhash
      · rw [logsIn_sessionCommand]
      · rcases hc.of_append with hc | ⟨-, hr⟩
        · exact hcut hc
        · exact not_replaces_of_issues (issues_sessionCommand a login.account) hr
    · intro hash e
      cases (issues_sessionCommand a login.account).symm.trans (congrArg issues e)
  | @refused login e a hmem herr =>
    refine hv.append (fun x hx => hx) hv.distinct (fun _ events _ hok => ?_) ?_
    · rw [herr] at hok
      cases hok
    · intro hash e
      cases (issues_sessionCommand a login.account).symm.trans (congrArg issues e)
  | command cmd now hnone =>
    refine hv.append (fun x hx => hx) hv.distinct (fun _ _ hhash _ => ?_) fun hash e => ha.adminSetPassword hash now (by rw [e])
    rw [hnone] at hhash
    cases hhash

theorem LoginRun.vouched (h : LoginRun UpToDate s) : Vouched s := by
  induction h with
  | start => exact ⟨fun n k r h => by simp [runLog, sessionAt, entity] at h, fun x hx => by simp at hx⟩
  | step _ hstep ha ih => exact ih.step hstep ha

/-- No node accepts the token of a login that is cut off there. -/
theorem old_credentials_refused (h : LoginRun UpToDate s) {x : IssuedToken} (hx : x ∈ s.issued) (n : Nat)
    (hc : CutOff (s.log.take n) x.login) (now : Int) :
    resolvePrincipal now (some ("Bearer " ++ x.token)) (runLog (s.log.take n)) = none := by
  have hv := h.vouched
  rw [Option.eq_none_iff_forall_ne_some]
  intro p hp
  obtain ⟨token, k, r, htoken, hk, hhash, -, -⟩ := resolvePrincipal_session hp
  obtain rfl : x.token = token := Option.some.inj ((stripPrefix_append "Bearer " x.token).symm.trans htoken)
  obtain ⟨y, hy, hyhash, -, hcut⟩ := hv.sessions n k r hk
  obtain rfl := hv.distinct y hy x hx (hyhash.trans hhash)
  exact hcut hc

/-! A password that is set while a login is between its steps. -/

omit [Hashing] in
theorem upToDate_of_same (hissued : s'.issued = s.issued)
    (hlog : ∀ hash now, s'.log ≠ s.log ++ [(.adminSetPassword hash, now)]) : UpToDate s s' where
  issue x e := absurd (hissued.symm.trans e) (List.cons_ne_self x s.issued).symm
  adminSetPassword hash now e := absurd e (hlog hash now)

omit [Hashing] in
theorem not_cutOff_of_seen (h : log.length ≤ login.seen) : ¬ CutOff log login := by
  rintro ⟨past, cmd, now, later, events, rfl, hseen, -, -⟩
  simp at h
  omega

end

end

section
attribute [local instance] sampleJson sampleHashing

def annLog : List (Command × Int) :=
  [(.projectCreate "shop" "" 0 none, 1), (.projectAdminCreate "shop" "ann" "s" "spw" 2, 2)]

def annLogin : VerifiedLogin := { account := some (.project "ann"), seen := 2 }

def annAttempt : Attempt := ⟨false, "", 0, 5, "s1", "x"⟩

def annToken : IssuedToken := { login := annLogin, token := annAttempt.token annLogin.account }

def annSetPassword : Command × Int := (.projectAdminSetPassword "ann" "s2" "s2new", 6)

def annVerified : LoginNode := { log := annLog, verified := [annLogin], issued := [] }

theorem run_annVerified {allowed : LoginNode → LoginNode → Prop} (h : ∀ s s', s'.issued = s.issued →
    (∀ hash now, s'.log ≠ s.log ++ [(.adminSetPassword hash, now)]) → allowed s s') : LoginRun allowed annVerified := by
  have h₀ : LoginRun allowed { log := [], verified := [], issued := [] } := .start
  have h₁ := h₀.step (.command (.projectCreate "shop" "" 0 none) 1 rfl) (h _ _ rfl (by simp))
  have h₂ := h₁.step (.command (.projectAdminCreate "shop" "ann" "s" "spw" 2) 2 rfl) (h _ _ rfl (by simp))
  have hverify : LoginStep { log := annLog, verified := [], issued := [] } annVerified :=
    .verify "" "pw" (by decide) (by decide +kernel)
  exact h₂.step hverify (h _ _ rfl fun _ _ e => by
    have hlen := congrArg List.length e
    rw [List.length_append, List.length_singleton] at hlen
    exact absurd hlen (Nat.succ_ne_self _).symm)

theorem annIssues {log : List (Command × Int)}
    (h : (apply (annAttempt.sessionCommand annLogin.account) annAttempt.now (runLog log)).result = .ok []) :
    LoginStep { log, verified := [annLogin], issued := [] }
      { log := log ++ [(annAttempt.sessionCommand annLogin.account, 5)], verified := [annLogin], issued := [annToken] } :=
  .issue annAttempt List.mem_cons_self (by simp) h

def annChanged : LoginNode where
  log := annLog ++ [(annAttempt.sessionCommand annLogin.account, 5)] ++ [annSetPassword]
  verified := [annLogin]
  issued := [annToken]

def annLate : LoginNode where
  log := annLog ++ [annSetPassword] ++ [(annAttempt.sessionCommand annLogin.account, 5)]
  verified := [annLogin]
  issued := [annToken]

theorem old_credentials_refused_sample :
    CutOff (annChanged.log.take 4) annLogin ∧
      resolvePrincipal 9 (some ("Bearer " ++ annToken.token)) (runLog (annChanged.log.take 4)) = none := by
  have h₁ := run_annVerified fun _ _ => upToDate_of_same
  have h₂ := h₁.step (annIssues (by decide +kernel)) {
    issue := by
      intro x e
      cases e
      exact not_cutOff_of_seen (by decide)
    adminSetPassword := by
      intro hash now e
      cases e }
  have h₃ : LoginRun UpToDate annChanged := h₂.step (.command annSetPassword.1 annSetPassword.2 rfl)
    (upToDate_of_same rfl fun hash now e => by
      have hlast := congrArg List.getLast? e
      simp [annChanged, annSetPassword] at hlast)
  have hc : CutOff (annChanged.log.take 4) annLogin :=
    ⟨annLog ++ [(annAttempt.sessionCommand annLogin.account, 5)], annSetPassword.1, annSetPassword.2, [], [], rfl, by decide,
      by decide +kernel, rfl⟩
  have hm : annToken ∈ annChanged.issued := List.mem_cons_self
  exact ⟨hc, old_credentials_refused h₃ hm 4 hc 9⟩

/-- The session is written for the old password once the new one is set, and the token is accepted. -/
theorem old_credentials_accepted :
    ¬ ∀ s, LoginRun (fun _ _ => True) s → ∀ x ∈ s.issued, ∀ n, CutOff (s.log.take n) x.login → ∀ now,
      resolvePrincipal now (some ("Bearer " ++ x.token)) (runLog (s.log.take n)) = none := by
  intro hall
  have h₁ : LoginRun (fun _ _ => True) annVerified := run_annVerified fun _ _ _ _ => trivial
  have h₂ := h₁.step (.command annSetPassword.1 annSetPassword.2 rfl) trivial
  have h₃ : LoginRun (fun _ _ => True) annLate := h₂.step (annIssues (by decide +kernel)) trivial
  have hc : CutOff (annLate.log.take 4) annLogin :=
    ⟨annLog, annSetPassword.1, annSetPassword.2, [(annAttempt.sessionCommand annLogin.account, 5)], [], rfl, by decide,
      by decide +kernel, rfl⟩
  have hnone := hall annLate h₃ annToken List.mem_cons_self 4 hc 9
  have hsome : resolvePrincipal 9 (some ("Bearer " ++ annToken.token)) (runLog (annLate.log.take 4)) =
      some (.projectAdmin "ann" "shop") := by decide +kernel
  rw [hsome] at hnone
  cases hnone

end

end Defing
