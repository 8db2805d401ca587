import Defing.Api.Routes
import Defing.Api.Principal

/-!
# Who may do what

The check reads the method and the raw path by itself, before the router's
parameters are decoded. Nothing is allowed that is not named.
-/

namespace Defing

open KV (Plain segments under Seg matchSegs mayMatch dispatch)

/-! ## The check -/

def plainName (seg : String) : Bool := seg ≠ "" && seg.toList.all fun c => c.isLower || c.isDigit || c = '-'

def segmentAfter (stem path : String) : Option String :=
  (stripPrefix stem path).bind fun rest =>
    let seg := (segments rest).headD ""
    if plainName seg then some seg else none

def projectSegment (path : String) : Option String := segmentAfter "/api/v1/projects/" path

def dataPlaneProjectSegment (path : String) : Option String := segmentAfter "/v1/projects/" path

/-- What global administrators may do: the configuration of all projects, and the shared one. -/
def gaAllowed (method path : String) : Bool :=
  if method = "POST" ∧ (path = "/api/v1/logout" ∨ path = "/api/v1/heartbeat" ∨ path = "/api/v1/me/password") then true
  else if method = "GET" ∧ (path = "/api/v1/projects" ∨ path = "/api/v1/audit" ∨ path = "/api/v1/cluster/members") then true
  else if path = "/api/v1/shared" ∨ path = "/api/v1/shared-draft" ∨ path = "/api/v1/shared/publish" ∨
      startsWith "/api/v1/shared/" path ∧ method = "DELETE" ∨ startsWith "/api/v1/shared-draft/" path ∧ method = "DELETE" then
    true
  else
    match projectSegment path with
    | none => false
    | some p =>
      let rest := (stripPrefix ("/api/v1/projects/" ++ p) path).getD ""
      if rest = "" then method = "GET"
      else
        match stripPrefix "/" rest with
        | none => false
        | some tail =>
          if (segments tail).any fun s => s = "" ∨ s = "." ∨ s = ".." then false
          else !(startsWith "/admins" rest || startsWith "/tokens" rest)

def paAllowed (project : ProjectId) (method path : String) : Bool :=
  if method = "POST" ∧ (path = "/api/v1/logout" ∨ path = "/api/v1/heartbeat") then true
  else if method = "POST" ∧ path = "/api/v1/me/password" then true
  else if method = "GET" ∧ path = "/api/v1/projects" then true
  else if method = "GET" ∧ path = "/api/v1/audit" then true
  else if method = "GET" ∧ path = "/api/v1/cluster/members" then true
  else if method = "GET" ∧ (path = "/api/v1/shared" ∨ path = "/api/v1/shared-draft") then true
  else
    match projectSegment path with
    | none => false
    | some p =>
      if p ≠ project then false
      else if (stripPrefix ("/api/v1/projects/" ++ project) path).any fun r =>
        startsWith "/admins" r || startsWith "/tokens" r then false
      else !(method = "DELETE" && path = "/api/v1/projects/" ++ project)

def authorize : Principal → (method path : String) → Bool
  | .admin, _, _ => true
  | .globalAdmin _, method, path => gaAllowed method path
  | .projectAdmin _ project, method, path => paAllowed project method path

/-! ## The policy, by handlers -/

/-- The administrators and tokens of a project. -/
def Handler.ofAccounts : Handler → Bool
  | .listProjectAdmins | .createProjectAdmin | .deleteProjectAdmin | .setProjectAdminPassword
  | .listProjectTokens | .createProjectToken | .deleteProjectToken => true
  | _ => false

def Handler.ofEveryProject : Handler → Bool
  | .logout | .heartbeat | .changeMyPassword | .listProjects | .auditList | .clusterMembers | .listShared
  | .listSharedDrafts => true
  | _ => false

def Handler.superOnly : Handler → Bool
  | .listGlobalAdmins | .createGlobalAdmin | .deleteGlobalAdmin | .setGlobalAdminPassword
  | .createProject | .deleteProject | .clusterJoin | .clusterPromote | .clusterRemove
  | .rotateMasterKey | .adminForceLogout | .adminSetPassword | .adminResetPassword | .adminSnapshot
  | .adminRetentionStatus => true
  | h => h.ofAccounts

/-! ## Paths of a project -/

section
variable {method path p stem rest : String} {tail : List String}

theorem eq_of_stripPrefix (h : stripPrefix stem path = some rest) : path = stem ++ rest := by
  unfold stripPrefix at h
  split at h
  · rename_i hs
    obtain ⟨c, hc⟩ := startsWith_iff.mp hs
    obtain rfl := Option.some.inj h
    exact String.toList_inj.mp (by simp [← hc])
  · cases h

theorem segmentAfter_some (xs : List String) (hx : ∀ a ∈ xs, Plain a) (h : segmentAfter (under xs "") path = some p) :
    plainName p ∧ ∃ tail, segments path = xs ++ p :: tail := by
  obtain ⟨rest, hrest, h⟩ := Option.bind_eq_some_iff.mp h
  dsimp only at h
  split at h
  · rename_i hp
    obtain rfl := Option.some.inj h
    refine ⟨hp, (segments rest).tail, ?_⟩
    rw [eq_of_stripPrefix hrest, KV.segments_of xs rest (by rw [← KV.under_append, String.empty_append]) hx]
    rcases hs : segments rest with _ | ⟨x, ys⟩
    · exact absurd hs (KV.segments_ne_nil rest)
    · rfl
  · cases h

theorem projectSegment_some (h : projectSegment path = some p) :
    plainName p ∧ ∃ tail, segments path = "" :: "api" :: "v1" :: "projects" :: p :: tail :=
  segmentAfter_some ["", "api", "v1", "projects"] (by simp [Plain]) h

theorem dataPlaneProjectSegment_some (h : dataPlaneProjectSegment path = some p) :
    plainName p ∧ ∃ tail, segments path = "" :: "v1" :: "projects" :: p :: tail :=
  segmentAfter_some ["", "v1", "projects"] (by simp [Plain]) h

theorem stripPrefix_project (h : segments path = "" :: "api" :: "v1" :: "projects" :: p :: tail) :
    ∃ r, path = "/api/v1/projects/" ++ p ++ r ∧ stripPrefix ("/api/v1/projects/" ++ p) path = some r ∧
      (tail = [] ∧ r = "" ∨ ∃ b, r = "/" ++ b ∧ segments b = tail) := by
  obtain ⟨c, rfl, hc⟩ := KV.eq_under_of_segments ["", "api", "v1", "projects"] h
  have hunder : ∀ r, under ["", "api", "v1", "projects"] (p ++ r) = "/api/v1/projects/" ++ p ++ r := fun r =>
    String.toList_inj.mp (by simp [under])
  rcases tail with _ | ⟨x, tail⟩
  · obtain ⟨-, rfl⟩ := KV.segments_singleton_iff.mp hc
    have he := hunder ""
    rw [String.append_empty] at he
    exact ⟨"", he, by rw [he]; exact stripPrefix_append _ "", .inl ⟨rfl, rfl⟩⟩
  · obtain ⟨-, b, rfl, hb⟩ := KV.segments_cons_cons_iff.mp hc
    have he := hunder ("/" ++ b)
    rw [← String.append_assoc] at he
    exact ⟨"/" ++ b, he, by rw [he]; exact stripPrefix_append _ _, .inr ⟨b, rfl, hb⟩⟩

theorem startsWith_of_segments {s b : String} (h : segments b = s :: tail) : startsWith ("/" ++ s) ("/" ++ b) := by
  rcases KV.segments_cases b with ⟨-, hs⟩ | ⟨a, c, -, rfl, hs⟩
  · obtain rfl := (List.cons_eq_cons.mp (hs.symm.trans h)).1
    exact startsWith_iff.mpr (List.prefix_refl _)
  · obtain rfl := (List.cons_eq_cons.mp (hs.symm.trans h)).1
    exact startsWith_iff.mpr (by simp)

theorem segments_of_startsWith_stem (xs : List String) (hx : ∀ a ∈ xs, Plain a) (h : startsWith (under xs "") path) :
    ∃ rest, segments path = xs ++ segments rest := by
  obtain ⟨c, hc⟩ := startsWith_iff.mp h
  refine ⟨String.ofList c, KV.segments_of xs _ ?_ hx⟩
  rw [← String.empty_append (s := String.ofList c), KV.under_append]
  simp [← hc]

end

/-! ## What the check allows -/

section
variable {method path : String} {project : ProjectId}

/-- What lies below a project is none of its accounts, and its deletion is not allowed. -/
def BelowProject (method : String) (p : String) (path : String) : Prop :=
  ∃ tail, segments path = "" :: "api" :: "v1" :: "projects" :: p :: tail ∧
    tail.head? ≠ some "admins" ∧ tail.head? ≠ some "tokens" ∧ ¬ (tail = [] ∧ method = "DELETE")

theorem not_accounts {tail : List String} {b : String} (hb : segments b = tail)
    (h : startsWith "/admins" ("/" ++ b) = false ∧ startsWith "/tokens" ("/" ++ b) = false) :
    tail.head? ≠ some "admins" ∧ tail.head? ≠ some "tokens" ∧ ¬ (tail = [] ∧ method = "DELETE") := by
  have hhead : ∀ s, startsWith ("/" ++ s) ("/" ++ b) = false → tail.head? ≠ some s := by
    intro s hs e
    obtain ⟨rest, he⟩ := List.head?_eq_some_iff.mp e
    rw [startsWith_of_segments (hb.trans he)] at hs
    cases hs
  refine ⟨hhead "admins" h.1, hhead "tokens" h.2, fun he => KV.segments_ne_nil b (hb.trans he.1)⟩

theorem gaAllowed_cases (h : gaAllowed method path) :
    method = "POST" ∧ path ∈ ["/api/v1/logout", "/api/v1/heartbeat", "/api/v1/me/password"] ∨
      method = "GET" ∧ path ∈ ["/api/v1/projects", "/api/v1/audit", "/api/v1/cluster/members"] ∨
      path ∈ ["/api/v1/shared", "/api/v1/shared-draft", "/api/v1/shared/publish"] ∨
      startsWith "/api/v1/shared/" path ∨ startsWith "/api/v1/shared-draft/" path ∨ ∃ p, BelowProject method p path := by
  unfold gaAllowed at h
  split at h
  · rename_i hc
    exact .inl ⟨hc.1, by simpa using hc.2⟩
  split at h
  · rename_i hc
    exact .inr (.inl ⟨hc.1, by simpa using hc.2⟩)
  split at h
  · rename_i hc
    rcases hc with hc | hc | hc | hc | hc
    · exact .inr (.inr (.inl (by simp [hc])))
    · exact .inr (.inr (.inl (by simp [hc])))
    · exact .inr (.inr (.inl (by simp [hc])))
    · exact .inr (.inr (.inr (.inl hc.1)))
    · exact .inr (.inr (.inr (.inr (.inl hc.1))))
  split at h
  · cases h
  rename_i p hp
  obtain ⟨-, tail, hsegs⟩ := projectSegment_some hp
  refine .inr (.inr (.inr (.inr (.inr ⟨p, tail, hsegs, ?_⟩))))
  obtain ⟨r, -, hr, ⟨rfl, rfl⟩ | ⟨b, rfl, hb⟩⟩ := stripPrefix_project hsegs
  · simp only [hr, Option.getD_some, ↓reduceIte, decide_eq_true_eq] at h
    simp [h]
  · simp only [hr, Option.getD_some, stripPrefix_append] at h
    split at h
    · rename_i he
      exact absurd he (by simp [← String.toList_inj])
    · split at h
      · cases h
      · refine not_accounts hb ?_
        simpa using h

theorem paAllowed_cases (h : paAllowed project method path) :
    method = "POST" ∧ path ∈ ["/api/v1/logout", "/api/v1/heartbeat", "/api/v1/me/password"] ∨
      method = "GET" ∧ path ∈ ["/api/v1/projects", "/api/v1/audit", "/api/v1/cluster/members", "/api/v1/shared",
        "/api/v1/shared-draft"] ∨
      plainName project ∧ BelowProject method project path := by
  unfold paAllowed at h
  split at h
  · rename_i hc
    exact .inl ⟨hc.1, by rcases hc.2 with e | e <;> simp [e]⟩
  split at h
  · rename_i hc
    exact .inl ⟨hc.1, by simp [hc.2]⟩
  split at h
  · rename_i hc
    exact .inr (.inl ⟨hc.1, by simp [hc.2]⟩)
  split at h
  · rename_i hc
    exact .inr (.inl ⟨hc.1, by simp [hc.2]⟩)
  split at h
  · rename_i hc
    exact .inr (.inl ⟨hc.1, by simp [hc.2]⟩)
  split at h
  · rename_i hc
    exact .inr (.inl ⟨hc.1, by rcases hc.2 with e | e <;> simp [e]⟩)
  split at h
  · cases h
  rename_i p hp
  obtain ⟨hplain, tail, hsegs⟩ := projectSegment_some hp
  split at h
  · cases h
  rename_i hne
  obtain rfl := not_not.mp hne
  refine .inr (.inr ⟨hplain, tail, hsegs, ?_⟩)
  obtain ⟨r, hpath, hr, hrest⟩ := stripPrefix_project hsegs
  rw [hr, Option.any_some] at h
  split at h
  · cases h
  rename_i hn
  rcases hrest with ⟨rfl, rfl⟩ | ⟨b, rfl, hb⟩
  · rw [String.append_empty] at hpath
    simpa [hpath] using h
  · refine not_accounts hb ?_
    simpa using hn

/-! ## The routes agree -/

variable {clustered : Bool} {h : Handler} {params : List (String × String)}

theorem dispatch_literal {Q : Handler → Prop} {paths : List String}
    (hd : dispatch (routes clustered) method path = some (h, params)) (hp : path ∈ paths)
    (hall : ∀ p ∈ paths, ∀ clustered, ∀ r ∈ routes clustered, (matchSegs r.pattern (segments p).tail).isSome →
      ∀ e ∈ r.methods, e.1 = method → Q e.2) : Q h := by
  obtain ⟨r, hr, segs, hs, hmatch, he⟩ := KV.dispatch_some hd
  exact hall path hp clustered r hr (by rw [hs, List.tail_cons, hmatch]; rfl) _ he rfl

theorem dispatch_below (xs : List String) {ys : List String} {Q : Handler → Prop} (hd : dispatch (routes clustered) method path = some (h, params))
    (hsegs : segments path = "" :: (xs ++ ys))
    (hall : ∀ clustered, ∀ r ∈ routes clustered, mayMatch xs r.pattern → ∀ e ∈ r.methods, Q e.2) : Q h := by
  obtain ⟨r, hr, segs, hs, hmatch, he⟩ := KV.dispatch_some hd
  obtain rfl := (List.cons_eq_cons.mp (hs.symm.trans hsegs)).2
  exact hall clustered r hr (KV.mayMatch_of_match xs hmatch) _ he

theorem project_routes : ∀ r ∈ routes clustered, mayMatch ["api", "v1", "projects"] r.pattern →
    r.pattern = apiRoute [.lit "projects"] ∨ r.pattern = projectRoute (r.pattern.drop 4) ∧
      ∀ e ∈ r.methods, e.2.superOnly →
        (r.pattern.drop 4 = [] ∧ e.1 = "DELETE") ∨ (r.pattern.drop 4).head? = some (.lit "admins") ∨
          (r.pattern.drop 4).head? = some (.lit "tokens") := by
  cases clustered <;> decide +kernel

theorem matchSegs_projectRoute {pattern : List Seg} {p : String} {tail : List String}
    (hm : matchSegs (projectRoute pattern) ("api" :: "v1" :: "projects" :: p :: tail) = some params) :
    params.lookup "p" = some p ∧ ∃ params', matchSegs pattern tail = some params' := by
  obtain ⟨_, e₁, hm⟩ := KV.matchSegs_lit.mp hm
  cases e₁
  obtain ⟨_, e₂, hm⟩ := KV.matchSegs_lit.mp hm
  cases e₂
  obtain ⟨_, e₃, hm⟩ := KV.matchSegs_lit.mp hm
  cases e₃
  obtain ⟨_, _, params', e₄, rfl, hm⟩ := KV.matchSegs_param.mp hm
  cases e₄
  exact ⟨by simp, params', hm⟩

theorem head_of_match {pattern : List Seg} {s : String} {tail : List String} {params : List (String × String)}
    (hm : matchSegs pattern tail = some params) (hs : pattern.head? = some (.lit s)) : tail.head? = some s := by
  obtain ⟨ps, rfl⟩ := List.head?_eq_some_iff.mp hs
  obtain ⟨xs, rfl, -⟩ := KV.matchSegs_lit.mp hm
  rfl

/-- What is dispatched below a project is for it, and not the super administrator's alone. -/
theorem dispatch_project {p : String} (hd : dispatch (routes clustered) method path = some (h, params))
    (hb : BelowProject method p path) : params.lookup "p" = some p ∧ ¬ h.superOnly := by
  obtain ⟨tail, hsegs, hadmins, htokens, hdelete⟩ := hb
  obtain ⟨r, hr, segs, hs, hmatch, he⟩ := KV.dispatch_some hd
  obtain rfl := (List.cons_eq_cons.mp (hs.symm.trans hsegs)).2
  rcases project_routes r hr (KV.mayMatch_of_match ["api", "v1", "projects"] hmatch) with hpat | ⟨hpat, hsuper⟩
  · rw [hpat] at hmatch
    cases hmatch
  · rw [hpat] at hmatch
    obtain ⟨hp, params', htail⟩ := matchSegs_projectRoute hmatch
    refine ⟨hp, fun hs => ?_⟩
    rcases hsuper _ he hs with ⟨hnil, hm⟩ | hhead | hhead
    · rw [hnil] at htail
      refine hdelete ⟨?_, hm⟩
      cases tail with
      | nil => rfl
      | cons => cases htail
    · exact hadmins (head_of_match htail hhead)
    · exact htokens (head_of_match htail hhead)

theorem gaAllowed_dispatch (hd : dispatch (routes clustered) method path = some (h, params)) (ha : gaAllowed method path) :
    ¬ h.superOnly := by
  rcases gaAllowed_cases ha with ⟨rfl, hp⟩ | ⟨rfl, hp⟩ | hp | hp | hp | ⟨p, hb⟩
  · exact dispatch_literal (Q := fun h => ¬ h.superOnly) hd hp (by decide +kernel)
  · exact dispatch_literal (Q := fun h => ¬ h.superOnly) hd hp (by decide +kernel)
  · have hall : ∀ p ∈ ["/api/v1/shared", "/api/v1/shared-draft", "/api/v1/shared/publish"], ∀ clustered,
        ∀ r ∈ routes clustered, (matchSegs r.pattern (segments p).tail).isSome → ∀ e ∈ r.methods, ¬ e.2.superOnly := by
      decide +kernel
    exact dispatch_literal (Q := fun h => ¬ h.superOnly) hd hp fun p hp c r hr hm e he _ => hall p hp c r hr hm e he
  · obtain ⟨rest, hsegs⟩ := segments_of_startsWith_stem ["", "api", "v1", "shared"] (by simp [Plain]) hp
    exact dispatch_below ["api", "v1", "shared"] (Q := fun h => ¬ h.superOnly) hd hsegs (by decide +kernel)
  · obtain ⟨rest, hsegs⟩ := segments_of_startsWith_stem ["", "api", "v1", "shared-draft"] (by simp [Plain]) hp
    exact dispatch_below ["api", "v1", "shared-draft"] (Q := fun h => ¬ h.superOnly) hd hsegs (by decide +kernel)
  · exact (dispatch_project hd hb).2

theorem paAllowed_dispatch (hd : dispatch (routes clustered) method path = some (h, params))
    (ha : paAllowed project method path) :
    (h.ofEveryProject ∨ plainName project ∧ params.lookup "p" = some project) ∧ ¬ h.superOnly := by
  rcases paAllowed_cases ha with ⟨rfl, hp⟩ | ⟨rfl, hp⟩ | ⟨hplain, hb⟩
  · have := dispatch_literal (Q := fun h => h.ofEveryProject ∧ ¬ h.superOnly) hd hp (by decide +kernel)
    exact ⟨.inl this.1, this.2⟩
  · have := dispatch_literal (Q := fun h => h.ofEveryProject ∧ ¬ h.superOnly) hd hp (by decide +kernel)
    exact ⟨.inl this.1, this.2⟩
  · obtain ⟨hp, hs⟩ := dispatch_project hd hb
    exact ⟨.inr ⟨hplain, hp⟩, hs⟩

theorem not_percent_of_plainName {p : String} (hp : plainName p) : '%' ∉ p.toList := by
  intro hm
  simp only [plainName, Bool.and_eq_true] at hp
  exact absurd (List.all_eq_true.mp hp.2 _ hm) (by decide)

theorem superOnly_of_ofAccounts (ha : h.ofAccounts) : h.superOnly := by
  cases h <;> first | rfl | cases ha

/-- Parameters without a percent sign are decoded to themselves. -/
theorem authorization_boundary {decode : String → Option String} (hdecode : ∀ s, '%' ∉ s.toList → decode s = some s)
    (hd : dispatch (routes clustered) method path = some (h, params)) :
    (∀ u q, authorize (.projectAdmin u q) method path →
      (h.ofEveryProject ∨ (params.lookup "p").bind decode = some q) ∧ ¬ h.ofAccounts ∧ h ≠ .deleteProject) ∧
      ∀ u, authorize (.globalAdmin u) method path → ¬ h.superOnly := by
  refine ⟨fun u q ha => ?_, fun u ha => gaAllowed_dispatch hd ha⟩
  obtain ⟨hp, hs⟩ := paAllowed_dispatch hd ha
  refine ⟨?_, ?_, ?_⟩
  · rcases hp with hp | ⟨hplain, hq⟩
    · exact .inl hp
    · rw [hq, Option.bind_some, hdecode q (not_percent_of_plainName hplain)]
      exact .inr rfl
  · intro hacct
    exact hs (superOnly_of_ofAccounts hacct)
  · rintro rfl
    exact hs rfl

theorem authorization_boundary_sample :
    dispatch (routes true) "GET" "/api/v1/projects/tokens/branches/admins" = some (.branchDetail, [("p", "tokens"), ("b", "admins")]) ∧
      authorize (.projectAdmin "ann" "tokens") "GET" "/api/v1/projects/tokens/branches/admins" ∧ ¬ Handler.branchDetail.superOnly := by
  have hd : dispatch (routes true) "GET" "/api/v1/projects/tokens/branches/admins" =
      some (.branchDetail, [("p", "tokens"), ("b", "admins")]) := by decide +kernel
  have hdecode : ∀ s : String, '%' ∉ s.toList → (fun s : String => if '%' ∈ s.toList then none else some s) s = some s :=
    fun s hs => if_neg hs
  have h := authorization_boundary hdecode hd
  exact ⟨hd, by decide +kernel, h.2 "gil" (by decide +kernel)⟩

end

end Defing
