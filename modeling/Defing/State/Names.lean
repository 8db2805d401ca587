import Defing.Core.Login
import Defing.State.Origin

/-!
# The names of accounts

No name is one of an administrator of a project and of a global one, so the
login finds every account under its own name.
-/

namespace Defing

open KV (Plain segments)

section
variable [SerdeJson]

/-- The names of the accounts of both kinds: unequal across the kinds whatever their case, each of one account
of its kind, and none `admin`. -/
structure LoginNames (t : Store) : Prop where
  apart : ∀ k k' a g, entity ProjectAdminAccount t k = some a → entity GlobalAdminAccount t k' = some g →
    ¬ eqIgnoreAsciiCase a.username g.username
  once : ∀ k k' a a', entity ProjectAdminAccount t k = some a → entity ProjectAdminAccount t k' = some a' →
    a.username = a'.username → k = k'
  onceGlobal : ∀ k k' g g', entity GlobalAdminAccount t k = some g → entity GlobalAdminAccount t k' = some g' →
    g.username = g'.username → k = k'
  notAdmin : ∀ k a, entity ProjectAdminAccount t k = some a → ¬ eqIgnoreAsciiCase a.username "admin"
  notAdminGlobal : ∀ k g, entity GlobalAdminAccount t k = some g → ¬ eqIgnoreAsciiCase g.username "admin"

section
variable {t t' : Store} {cmd : Command} {k u v : String}

omit [SerdeJson] in
theorem eqIgnoreAsciiCase_comm : eqIgnoreAsciiCase u v = eqIgnoreAsciiCase v u := by
  simp only [eqIgnoreAsciiCase, eq_comm]

omit [SerdeJson] in
theorem not_admin_of_valid (h : validAccountUsername u) : ¬ eqIgnoreAsciiCase u "admin" := by
  intro hadmin
  simp [validAccountUsername, hadmin] at h

def NamesApart (t : Store) : Prop :=
  ∀ u v, adminOf t u ≠ none → globalAdminOf t v ≠ none → ¬ eqIgnoreAsciiCase u v

theorem namesApart_step (h : NamesApart t) (hs : CredentialStep t cmd t') : NamesApart t' := by
  intro u v hu hv
  obtain ⟨a, ha⟩ := Option.ne_none_iff_exists'.mp hu
  obtain ⟨g, hg⟩ := Option.ne_none_iff_exists'.mp hv
  rcases hs.admin ha with ⟨a₀, h₀, -, -⟩ | ⟨⟨_, _, _, hcmd⟩, -, -, -, hfree⟩
  · rcases hs.globalAdmin hg with ⟨g₀, h₁, -⟩ | ⟨-, -, -, hfree⟩
    · exact h u v (by simp [h₀]) (by simp [h₁])
    · exact hfree u (by simp [entity_exact.mp h₀])
  · rcases hs.globalAdmin hg with ⟨g₀, h₁, -⟩ | ⟨⟨_, _, _, hcmd'⟩, -⟩
    · rw [eqIgnoreAsciiCase_comm]
      exact hfree v (by simp [entity_exact.mp h₁])
    · rw [hcmd] at hcmd'
      cases hcmd'

theorem loginNames_of_apart (ht : WellPlaced t) (h : NamesApart t) : LoginNames t := by
  have hpa : ∀ {k a}, entity ProjectAdminAccount t k = some a →
      validAccountUsername a.username ∧ k = projectAdminKey a.username := fun ha => ht _ _ (entity_exact.mp ha)
  have hga : ∀ {k g}, entity GlobalAdminAccount t k = some g →
      validAccountUsername g.username ∧ k = globalAdminKey g.username := fun hg => ht _ _ (entity_exact.mp hg)
  refine ⟨fun k k' a g ha hg => ?_, fun k k' a a' ha ha' e => ?_, fun k k' g g' hg hg' e => ?_, fun k a ha => ?_,
    fun k g hg => ?_⟩
  · obtain ⟨-, rfl⟩ := hpa ha
    obtain ⟨-, rfl⟩ := hga hg
    exact h a.username g.username (by simp [adminOf, ha]) (by simp [globalAdminOf, hg])
  · rw [(hpa ha).2, (hpa ha').2, e]
  · rw [(hga hg).2, (hga hg').2, e]
  · exact not_admin_of_valid (hpa ha).1
  · exact not_admin_of_valid (hga hg).1

/-! ## The login finds them -/

omit [SerdeJson] in
theorem isWhitespace_of_alphanum {c : Char} (h : c.isAlphanum || c = '_' || c = '-') : isWhitespace c = false := by
  simp only [Bool.or_eq_true, decide_eq_true_eq] at h
  rcases h with (h | rfl) | rfl
  · have hb : (decide (c.val ≥ 65 ∧ c.val ≤ 90) || (decide (c.val ≥ 97) && decide (c.val ≤ 122))) ||
        (decide (c.val ≥ 48) && decide (c.val ≤ 57)) := h
    simp only [Bool.or_eq_true, Bool.and_eq_true, decide_eq_true_eq, ge_iff_le, UInt32.le_iff_toNat_le] at hb
    have hn : (65 ≤ c.toNat ∧ c.toNat ≤ 90 ∨ 97 ≤ c.toNat ∧ c.toNat ≤ 122) ∨ 48 ≤ c.toNat ∧ c.toNat ≤ 57 := hb
    simp [isWhitespace]
    omega
  · rfl
  · rfl

omit [SerdeJson] in
theorem trim_of_all {s : String} (h : ∀ c ∈ s.toList, isWhitespace c = false) : trim s = s := by
  have hleft : s.toList.dropWhile isWhitespace = s.toList := by
    rw [List.dropWhile_eq_self_iff]
    intro hl
    simpa using h _ (List.getElem_mem hl)
  have hright : s.toList.rdropWhile isWhitespace = s.toList := by
    rw [List.rdropWhile_eq_self_iff]
    intro hl
    simpa using h _ (List.getLast_mem hl)
  rw [trim, hleft, hright, String.ofList_toList]

omit [SerdeJson] in
theorem loginName_of_valid (h : validAccountUsername u) : ((some u).map trim).filter (· ≠ "") = some u := by
  simp only [validAccountUsername, Bool.and_eq_true, decide_eq_true_eq] at h
  obtain ⟨⟨⟨⟨hne, -⟩, -⟩, hall⟩, -⟩ := h
  have htrim := trim_of_all fun c hc => isWhitespace_of_alphanum (List.all_eq_true.mp hall c hc)
  simp [htrim, hne]

end

section
variable {t : Store} {u : String} {now : Int}

theorem tryRead_loadMerged {α : Type} [Codec α] (k : String) (t : Store) :
    tryRead (loadMerged k : M (Option α)) t = entity α t k := by
  have hreads : (loadMerged k : M (Option α)).ReadOnly := readAs_readOnly _ _
  rw [tryRead, hreads.run_eq, entity]
  change ((KV.Prog.ofExcept (parseRow _ t[k]?) : M (Option α)).eval t).toOption.join = _
  cases t[k]? with
  | none => rfl
  | some v =>
    simp only [parseRow, Option.bind_some]
    cases (Codec.decode v : Option α) <;> rfl

theorem openSession_apply {α : Type} [Codec α] [Codec.Exact α] {cmd : Command} {key k : String} {err : Error} {f : α → AdminSession}
    {a : α} (ha : entity α t key = some a)
    (hcmd : applyInner cmd now = (loadMerged key >>= fun o => okOr o err >>= fun a => savePending k (f a) >>= fun _ => pure [])) :
    apply cmd now t = { result := .ok [], store := t.insert k (.session (f a)), writes := [] } := by
  refine apply_eq (s := (⟨t, []⟩ : State).insert k (.session (f a))) ?_
  rw [execute, hcmd]
  exact openSession_ok.mpr ⟨a, ha, rfl, rfl⟩

theorem namesApart_of_reach (h : Reachable t) : NamesApart t := by
  induction h with
  | empty =>
    intro u v hu
    simp [adminOf, entity] at hu
  | step cmd now hr _ ih =>
    rcases credential_apply (wellPlaced_of_reach hr) cmd now with ⟨-, hs⟩ | ⟨-, hk⟩
    · exact namesApart_step ih hs
    · exact namesApart_step ih (.idle hk)

variable [Hashing] {att : Attempt} {password : String}

def Attempt.session (att : Attempt) (token : String) (principal : Principal) : AdminSession where
  tokenHash := Hashing.tokenHash token
  issuedAt := att.now
  expiresAt := att.expiresAt
  deviceId := "cli"
  principal := principal

theorem login_projectAdmin (ht : WellPlaced t) (hapart : NamesApart t) (hb : ¬ att.blocked) {a : ProjectAdminAccount}
    (ha : adminOf t u = some a) :
    login att { password, username := some u } t =
      if verifyPassword password a.passwordHash a.salt then
        (.ok { token := att.paToken u, role := some "project_admin", project := some a.project, username := some u },
          t.insert (paSessionKeyWith u att.sessionId) (.session (att.session (att.paToken u) (.projectAdmin u a.project))))
      else (.error badCredentials, t) := by
  have hname := loginName_of_valid (adminOf_username ht ha).1
  have hga : globalAdminOf t u = none := by
    by_contra hg
    exact hapart u u (by simp [ha]) hg (by simp [eqIgnoreAsciiCase])
  have hread : tryRead (getGlobalAdmin u) t = none := (tryRead_loadMerged _ t).trans hga
  have hread' : tryRead (getProjectAdmin u) t = some a := (tryRead_loadMerged _ t).trans ha
  have hopen : apply (.multiPaSessionLogin u (Hashing.tokenHash (att.paToken u)) att.now att.expiresAt "cli" att.sessionId)
      att.now t = _ := openSession_apply ha rfl
  simp only [login, if_neg hb, hname, hread, Option.isSome_none, Bool.false_eq_true, if_false, paLogin, hread', hopen]
  rfl

theorem login_globalAdmin (ht : WellPlaced t) (hb : ¬ att.blocked) {g : GlobalAdminAccount}
    (hg : globalAdminOf t u = some g) :
    login att { password, username := some u } t =
      if verifyPassword password g.passwordHash g.salt then
        (.ok { token := att.gaToken u, role := some "global_admin", username := some u },
          t.insert (gaSessionKeyWith u att.sessionId) (.session (att.session (att.gaToken u) (.globalAdmin u))))
      else (.error badCredentials, t) := by
  obtain ⟨hv, hu⟩ := globalAdminOf_username ht hg
  have hread : tryRead (getGlobalAdmin u) t = some g := (tryRead_loadMerged _ t).trans hg
  have hopen : apply (.multiGaSessionLogin u (Hashing.tokenHash (att.gaToken u)) att.now att.expiresAt "cli" att.sessionId)
      att.now t = _ := openSession_apply hg rfl
  simp only [login, if_neg hb, loginName_of_valid hv, hread, Option.isSome_some, if_true, gaLogin, hopen, hu]
  rfl

/-- The names of accounts are disjoint in every reachable store, and the login under the name of an account checks
the password of this account and opens a session of it. -/
theorem login_reaches_every_account (h : Reachable t) :
    LoginNames t ∧
      (∀ u a, adminOf t u = some a → ∀ (att : Attempt) password, ¬ att.blocked →
        login att { password, username := some a.username } t =
          if verifyPassword password a.passwordHash a.salt then
            (.ok { token := att.paToken a.username, role := some "project_admin", project := some a.project,
                   username := some a.username },
              t.insert (paSessionKeyWith a.username att.sessionId)
                (.session (att.session (att.paToken a.username) (.projectAdmin a.username a.project))))
          else (.error badCredentials, t)) ∧
      ∀ u g, globalAdminOf t u = some g → ∀ (att : Attempt) password, ¬ att.blocked →
        login att { password, username := some g.username } t =
          if verifyPassword password g.passwordHash g.salt then
            (.ok { token := att.gaToken g.username, role := some "global_admin", username := some g.username },
              t.insert (gaSessionKeyWith g.username att.sessionId)
                (.session (att.session (att.gaToken g.username) (.globalAdmin g.username))))
          else (.error badCredentials, t) := by
  have ht := wellPlaced_of_reach h
  have hapart := namesApart_of_reach h
  refine ⟨loginNames_of_apart ht hapart, fun u a ha att password hb => ?_, fun u g hg att password hb => ?_⟩
  · rw [(adminOf_username ht ha).2]
    exact login_projectAdmin ht hapart hb ha
  · rw [(globalAdminOf_username ht hg).2]
    exact login_globalAdmin ht hb hg

end

end

section
attribute [local instance] sampleJson

@[reducible] def sampleHashing : Hashing where
  argon2 _ _ := false
  tokenHash token := token

attribute [local instance] sampleHashing

def nameLog : List (Command × Int) :=
  [(.projectCreate "shop" "" 0 none, 1), (.projectAdminCreate "shop" "ann" "s" "spw" 2, 2),
    (.globalAdminCreate "Ann" "s" "spw" 3, 3), (.globalAdminCreate "bob" "s" "spw" 4, 4)]

/-- A global administrator `Ann` is refused; `ann` logs in. -/
theorem login_reaches_every_account_sample :
    LoginNames (runLog nameLog) ∧
      (login ⟨false, "", 0, 5, "sid", "secret"⟩ { password := "pw", username := some "ann" } (runLog nameLog)).1 =
        .ok { token := "pa.ann.sid.secret", role := some "project_admin", project := some "shop", username := some "ann" } := by
  have h := login_reaches_every_account (reachable_runLog nameLog)
  have ha : adminOf (runLog nameLog) "ann" = some ⟨"ann", "shop", "s", "spw", 2⟩ := by decide +kernel
  refine ⟨h.1, ?_⟩
  rw [h.2.1 "ann" _ ha _ "pw" (by simp)]
  decide +kernel

end

end Defing
