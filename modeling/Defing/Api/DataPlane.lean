import Defing.Api.Authorize
import Defing.State.OwnRows
import Defing.Watch.Hub

/-!
# The data plane

Three endpoints of the server and three of the gRPC service give out the
configuration of a project. The middleware looks for the project in the raw path,
the handlers take the decoded parameter, and the endpoint of documents checks
once more by itself. State and clock may move between the two checks.
-/

namespace Defing

open KV (segments dispatch)

/-! ## Requests -/

/-- The values of the headers are as they are sent. -/
structure Request where
  method : String
  path : String
  query : Option String := none
  authorization : Option String := none
  /-- `X-Dsh-Instance` -/
  instanceId : Option String := none
  /-- `X-Dsh-Labels` -/
  labels : Option String := none
  peer : Option IpAddr := none

/-- `HeaderValue::to_str`: visible characters of ASCII, blanks and tabs. -/
def Visible (value : String) : Prop := ∀ c ∈ value.toList, c = '\t' ∨ 32 ≤ c.toNat ∧ c.toNat < 127

instance (value : String) : Decidable (Visible value) := List.decidableBAll _ value.toList

def headerText (value : Option String) : Option String := value.filter fun v => Visible v

structure ApiConfig where
  clustered : Bool := false
  devToken : Option String := none
  /-- The cipher: nothing without a master key, or where it fails. -/
  decrypt : Ciphertext → Option String

structure RenderQuery where
  format : String := "yaml"
  version : Nat := 0
  reveal : Bool := false

def splitAt (c : Char) (s : String) : List String := (s.toList.splitOn c).map String.ofList

def queryParts (query : Option String) : List String := (query.map (splitAt '&')).getD []

structure Extractors where
  /-- The percent-decoded text of a parameter, if that is UTF-8. -/
  decode : String → Option String
  renderQuery : Option String → Option RenderQuery
  watchQuery : Option String → Option Nat
  decode_plain {s : String} : '%' ∉ s.toList → decode s = some s
  /-- A pair is read as it stands; of a field that is given twice nothing is. -/
  renderQuery_reveal {query : Option String} {q : RenderQuery} :
    "reveal=true" ∈ queryParts query → renderQuery query = some q → q.reveal = true

/-- Where and when a check or a read takes place. -/
structure Moment where
  store : Store
  now : Int

/-! ## The middleware -/

def extractDataToken (req : Request) : Option String :=
  (bearer (headerText req.authorization)).or ((queryParts req.query).findSome? (stripPrefix "token="))

def refusal (status : Nat) (code message : String) : Refusal := { status, body := { code, message } }

section
variable [SerdeJson] [Hashing]

def getDataToken (hash : String) : M (Option ProjectTokenRecord) := loadMerged (dataTokenKey hash)

def isTokenOf (m : Moment) (raw : String) (project : ProjectId) : Bool :=
  (tryRead (getDataToken (Hashing.tokenHash raw)) m.store).any fun r => !r.revoked && r.project = project

def dataPlaneAuthorized (cfg : ApiConfig) (m : Moment) (req : Request) : Bool :=
  match extractDataToken req with
  | none => false
  | some raw =>
    if cfg.devToken = some raw then true
    else
      match dataPlaneProjectSegment req.path with
      | none => false
      | some pid => isTokenOf m raw pid

def sessionOk (principal : Option Principal) (project : Option ProjectId) : Bool :=
  match principal with
  | some .admin => true
  | some (.globalAdmin _) => true
  | some (.projectAdmin _ p) => project = some p
  | none => false

def openPaths : List String :=
  ["/api/v1/login", "/healthz", "/readyz", "/api/v1/cluster/join", "/api/v1/admin/reset-password"]

def authMiddleware (cfg : ApiConfig) (m : Moment) (req : Request) : Except Refusal (Option Principal) :=
  if req.path ∈ openPaths then .ok none
  else if startsWith "/api/v1/" req.path then
    match resolvePrincipal m.now (headerText req.authorization) m.store with
    | none => .error (refusal 401 "ERR_SESSION_EXPIRED" "需要管理员会话")
    | some principal =>
      if authorize principal req.method req.path then .ok (some principal)
      else .error (refusal 403 "ERR_FORBIDDEN" "无权访问该资源")
  else if startsWith "/v1/" req.path then
    let isRender := endsWith "/config" req.path
    -- checked by the handler
    let revealRender := isRender && decide ("reveal=true" ∈ queryParts req.query)
    let sessionAllowed := isRender && !revealRender &&
      sessionOk (resolvePrincipal m.now (headerText req.authorization) m.store) (dataPlaneProjectSegment req.path)
    if revealRender || sessionAllowed || dataPlaneAuthorized cfg m req then .ok none
    else .error (refusal 401 "ERR_UNAUTHORIZED" "data-plane token required")
  else .ok none

/-! ## The endpoints of the server -/

/-- `X-Dsh-Labels`: pairs with an equals sign, the last one of a key. -/
def parseLabels (raw : String) : StrMap String :=
  ((splitAt ',' raw).map trim).foldl
    (fun labels pair =>
      match splitAt '=' pair with
      | k :: v :: vs =>
        let key := trim k
        if key = "" then labels else labels.insert key (trim ("=".intercalate (v :: vs)))
      | _ => labels) ∅

def clientCtxFromHeaders (req : Request) : ClientCtx where
  instanceId := trim ((headerText req.instanceId).getD "")
  labels := ((headerText req.labels).map parseLabels).getD ∅
  ip := req.peer

/-- Secrets are decrypted or masked; one that cannot be decrypted is masked. -/
def applySecretPolicy (decrypt : Ciphertext → Option String) (reveal : Bool) (groups : SnapshotMap) : SnapshotMap :=
  groups.map fun _ items => items.map fun _ v =>
    match v with
    | .secret ct => if reveal then .string ((decrypt ct).getD "***") else .string "***"
    | v => v

/-- A snapshot as it goes out; the values are then written plainly. -/
structure ConfigResp where
  project : String
  branch : String
  version : Nat
  resolvedVersion : Nat
  structureVersion : Nat
  groups : SnapshotMap
  gray : Bool
  deriving DecidableEq

def ConfigSnapshot.resp (snap : ConfigSnapshot) (groups : SnapshotMap) : ConfigResp :=
  { snap with groups }

def snapshot (cfg : ApiConfig) (m : Moment) (req : Request) (pid branch : String) : Except Refusal ConfigResp :=
  match (getConfigResolved pid branch 0 (clientCtxFromHeaders req)).eval m.store with
  | .error e => .error e.refusal
  | .ok snap => .ok (snap.resp (applySecretPolicy cfg.decrypt false snap.groups))

structure Document where
  project : String
  branch : String
  format : String
  groups : SnapshotMap
  revealed : Bool
  deriving DecidableEq

def renderConfig (cfg : ApiConfig) (m : Moment) (req : Request) (q : RenderQuery) (pid branch : String) :
    Except Refusal Document :=
  let principal := resolvePrincipal m.now (headerText req.authorization) m.store
  let dataOk := dataPlaneAuthorized cfg m req
  if q.reveal ∧ ¬ dataOk ∧ principal = none then
    .error (refusal 401 "ERR_SESSION_EXPIRED" "reveal=true 需要管理员会话或本项目数据面 token")
  else if q.reveal ∧ ¬ dataOk ∧ ¬ sessionOk principal (some pid) then
    .error (refusal 403 "ERR_FORBIDDEN" "项目管理员只能查看本项目的配置明文")
  else
    let reveal := q.reveal || dataOk
    match (getConfig pid branch q.version).eval m.store with
    | .error e => .error e.refusal
    | .ok snap =>
      .ok { project := pid, branch, format := q.format, groups := applySecretPolicy cfg.decrypt reveal snap.groups,
            revealed := reveal }

inductive DataReply
  | snapshot (resp : ConfigResp)
  | document (doc : Document)
  | stream (project branch : String) (s : WatchStream)
  deriving DecidableEq

def badRequest : Refusal := refusal 400 "ERR_BAD_REQUEST" ""

def serveEndpoint (x : Extractors) (cfg : ApiConfig) (m : Moment) (req : Request) (pid branch : String) :
    Handler → Except Refusal DataReply
  | .snapshot => .snapshot <$> snapshot cfg m req pid branch
  | .renderConfig =>
    match x.renderQuery req.query with
    | none => .error badRequest
    | some q => .document <$> renderConfig cfg m req q pid branch
  | .watchBranch =>
    match x.watchQuery req.query with
    | none => .error badRequest
    | some after => .ok (.stream pid branch (sseStream m.store pid branch after))
  | _ => .error (refusal 404 "" "")

/-- A request of the data plane: the middleware at one moment, the handler at the next one. -/
def serveData (x : Extractors) (cfg : ApiConfig) (m m' : Moment) (req : Request) : Except Refusal DataReply := do
  let _ ← authMiddleware cfg m req
  match dispatch (routes cfg.clustered) req.method req.path with
  | none => .error (refusal 404 "" "")
  | some (handler, params) =>
    match (params.lookup "p").bind x.decode, (params.lookup "b").bind x.decode with
    | some pid, some branch => serveEndpoint x cfg m' req pid branch handler
    | _, _ => .error badRequest

/-! ## The gRPC service -/

/-- What a call of the service carries; only `GetItem` has an item, and only `Watch` a version to resume after. -/
structure GrpcCall where
  authorization : Option String
  project : String
  branch : String
  version : Int := 0
  instanceId : String := ""
  labels : StrMap String := ∅
  peer : Option IpAddr := none
  group : String := ""
  key : String := ""
  afterVersion : Nat := 0

inductive Status
  | unauthenticated (message : String)
  | notFound (message : String)
  | failed (e : Error)
  deriving DecidableEq

structure ProtoSnapshot where
  project : String
  branch : String
  version : Nat
  structureVersion : Nat
  groups : StrMap (StrMap ProtoValue)
  gray : Bool
  resolvedVersion : Nat
  deriving DecidableEq

structure ItemValue where
  group : String
  key : String
  value : ProtoValue
  deriving DecidableEq

def snapshotToProto (project branch : String) (snap : ConfigSnapshot) : ProtoSnapshot where
  project := project
  branch := branch
  version := snap.version
  structureVersion := snap.structureVersion
  groups := snap.groups.map fun _ items => items.map fun _ v => valueToProto v
  gray := snap.gray
  resolvedVersion := snap.resolvedVersion

def authorizeProject (cfg : ApiConfig) (m : Moment) (authorization : Option String) (project : String) : Except Status Unit :=
  match bearer (headerText authorization) with
  | none => .error (.unauthenticated "data-plane token required")
  | some raw =>
    if cfg.devToken = some raw then .ok ()
    else if isTokenOf m raw project then .ok ()
    else .error (.unauthenticated "invalid data-plane token")

def GrpcCall.resolved (call : GrpcCall) (m : Moment) : Except Status ConfigSnapshot :=
  match (getConfigResolved call.project call.branch call.version.toNat
      { instanceId := call.instanceId, labels := call.labels, ip := call.peer }).eval m.store with
  | .error e => .error (.failed e)
  | .ok snap => .ok snap

def grpcGetConfig (cfg : ApiConfig) (m m' : Moment) (call : GrpcCall) : Except Status ProtoSnapshot := do
  authorizeProject cfg m call.authorization call.project
  let snap ← call.resolved m'
  pure (snapshotToProto call.project call.branch snap)

def grpcGetItem (cfg : ApiConfig) (m m' : Moment) (call : GrpcCall) : Except Status ItemValue := do
  authorizeProject cfg m call.authorization call.project
  let snap ← call.resolved m'
  match item? snap.groups call.group call.key with
  | none => .error (.notFound (call.project ++ "/" ++ call.group ++ "/" ++ call.key))
  | some v => pure { group := call.group, key := call.key, value := valueToProto v }

def grpcWatch (cfg : ApiConfig) (m m' : Moment) (call : GrpcCall) : Except Status WatchStream := do
  authorizeProject cfg m call.authorization call.project
  match grpcStream m'.store call.project call.branch call.afterVersion with
  | .error e => .error (.failed e)
  | .ok s => pure s

inductive GrpcReply
  | config (snap : ProtoSnapshot)
  | item (value : ItemValue)
  | stream (s : WatchStream)
  deriving DecidableEq

inductive GrpcMethod
  | getConfig
  | getItem
  | watch

def serveGrpc (cfg : ApiConfig) (m m' : Moment) (call : GrpcCall) : GrpcMethod → Except Status GrpcReply
  | .getConfig => .config <$> grpcGetConfig cfg m m' call
  | .getItem => .item <$> grpcGetItem cfg m m' call
  | .watch => .stream <$> grpcWatch cfg m m' call

/-! ## Credentials -/

/-- The token is the dev token, or one of the project that has not been revoked. -/
def TokenFor (cfg : ApiConfig) (m : Moment) (token : Option String) (project : ProjectId) : Prop :=
  ∃ raw, token = some raw ∧ (cfg.devToken = some raw ∨
    ∃ r, tokenOf m.store (Hashing.tokenHash raw) = some r ∧ r.revoked = false ∧ r.project = project)

/-- A session that has not expired, of an administrator of the project or of all projects. -/
def SessionFor (m : Moment) (req : Request) (project : ProjectId) : Prop :=
  ∃ token k s, bearer req.authorization = some token ∧ sessionAt m.store k = some s ∧
    s.tokenHash = Hashing.tokenHash token ∧ s.notExpired m.now ∧
    (s.principal = .admin ∨ (∃ u, s.principal = .globalAdmin u) ∨ ∃ u, s.principal = .projectAdmin u project)

def DataReply.project : DataReply → ProjectId
  | .snapshot resp => resp.project
  | .document doc => doc.project
  | .stream project _ _ => project

def DataReply.IsDocument : DataReply → Prop
  | .document _ => True
  | _ => False

instance : DecidablePred DataReply.IsDocument
  | .document _ => isTrue trivial
  | .snapshot _ => isFalse id
  | .stream .. => isFalse id

/-- To a state with other rows the checks of a handler say the same about the request. -/
def SameChecks (cfg : ApiConfig) (req : Request) (m : Moment) (t' : Store) : Prop :=
  dataPlaneAuthorized cfg { m with store := t' } req = dataPlaneAuthorized cfg m req ∧
    resolvePrincipal m.now (headerText req.authorization) t' = resolvePrincipal m.now (headerText req.authorization) m.store

variable {cfg : ApiConfig} {m m' : Moment} {req : Request} {pid p : ProjectId} {x : Extractors}

omit [SerdeJson] [Hashing] in
theorem bearer_of_headerText {value : Option String} {token : String} (h : bearer (headerText value) = some token) :
    bearer value = some token := by
  obtain ⟨text, htext, h⟩ := Option.bind_eq_some_iff.mp h
  exact Option.bind_eq_some_iff.mpr ⟨text, (Option.filter_eq_some_iff.mp htext).1, h⟩

omit [Hashing] in
theorem tokenOf_read (hash : String) (t : Store) : tryRead (getDataToken hash) t = tokenOf t hash := tryRead_loadMerged _ t

theorem isTokenOf_iff {raw : String} :
    isTokenOf m raw pid ↔ ∃ r, tokenOf m.store (Hashing.tokenHash raw) = some r ∧ r.revoked = false ∧ r.project = pid := by
  rw [isTokenOf, tokenOf_read, Option.any_eq_true]
  simp

theorem sessionFor_of_sessionOk {project : Option ProjectId}
    (h : sessionOk (resolvePrincipal m.now (headerText req.authorization) m.store) project) (hp : ∀ p, project = some p → p = pid) :
    SessionFor m req pid := by
  unfold sessionOk at h
  cases hres : resolvePrincipal m.now (headerText req.authorization) m.store with
  | none => simp [hres] at h
  | some p =>
    obtain ⟨token, k, s, htoken, hk, hhash, hexp, rfl⟩ := resolvePrincipal_session hres
    refine ⟨token, k, s, bearer_of_headerText htoken, hk, hhash, hexp, ?_⟩
    cases hpr : s.principal with
    | admin => simp
    | globalAdmin u => simp
    | projectAdmin u q =>
      simp only [hres, hpr, decide_eq_true_eq] at h
      simp [hp q h]

/-- A token that the server accepts is for the project of the raw path. -/
theorem dataPlaneAuthorized_token (h : dataPlaneAuthorized cfg m req)
    (hp : ∀ p, dataPlaneProjectSegment req.path = some p → p = pid) : TokenFor cfg m (extractDataToken req) pid := by
  unfold dataPlaneAuthorized at h
  split at h
  · cases h
  rename_i raw hraw
  split at h
  · rename_i hdev
    exact ⟨raw, hraw, .inl hdev⟩
  split at h
  · cases h
  rename_i q hq
  obtain rfl := hp q hq
  exact ⟨raw, hraw, .inr (isTokenOf_iff.mp h)⟩

theorem authorizeProject_token {authorization : Option String} {u : Unit}
    (h : authorizeProject cfg m authorization pid = .ok u) : TokenFor cfg m (bearer authorization) pid := by
  unfold authorizeProject at h
  split at h
  · cases h
  rename_i raw hraw
  have hraw := bearer_of_headerText hraw
  split at h
  · rename_i hdev
    exact ⟨raw, hraw, .inl hdev⟩
  split at h
  · rename_i hok
    exact ⟨raw, hraw, .inr (isTokenOf_iff.mp hok)⟩
  · cases h

theorem serveGrpc_token {call : GrpcCall} {method : GrpcMethod} {answer : GrpcReply}
    (h : serveGrpc cfg m m' call method = .ok answer) : TokenFor cfg m (bearer call.authorization) call.project := by
  cases hauth : authorizeProject cfg m call.authorization call.project with
  | ok u => exact authorizeProject_token hauth
  | error e =>
    cases method <;> simp only [serveGrpc, grpcGetConfig, grpcGetItem, grpcWatch, hauth] at h <;> cases h

/-! ## Paths of the data plane -/

def endpointName : Handler → Option String
  | .snapshot => some "snapshot"
  | .renderConfig => some "config"
  | .watchBranch => some "watch"
  | _ => none

section
variable {clustered : Bool} {method path name : String} {handler : Handler} {params : List (String × String)}

omit [SerdeJson] [Hashing] in
theorem dataPlane_routes : ∀ r ∈ routes clustered, ∀ e ∈ r.methods, ∀ name, endpointName e.2 = some name →
    r.pattern = dataPlaneRoute name := by
  have h : ∀ clustered, ∀ r ∈ routes clustered, ∀ e ∈ r.methods,
      (endpointName e.2).all fun name => r.pattern = dataPlaneRoute name := by
    decide +kernel
  intro r hr e he name hname
  have := h clustered r hr e he
  rw [hname] at this
  simpa using this

omit [SerdeJson] [Hashing] in
theorem dispatch_dataPlane (hd : dispatch (routes clustered) method path = some (handler, params))
    (hname : endpointName handler = some name) :
    ∃ p b, segments path = ["", "v1", "projects", p, "branches", b, name] ∧ params = [("p", p), ("b", b)] := by
  obtain ⟨r, hr, segs, hs, hmatch, he⟩ := KV.dispatch_some hd
  rw [dataPlane_routes r hr _ he name hname, dataPlaneRoute] at hmatch
  obtain ⟨xs₁, rfl, h₁⟩ := KV.matchSegs_lit.mp hmatch
  obtain ⟨xs₂, rfl, h₂⟩ := KV.matchSegs_lit.mp h₁
  obtain ⟨p, xs₃, params₃, rfl, rfl, h₃⟩ := KV.matchSegs_param.mp h₂
  obtain ⟨xs₄, rfl, h₄⟩ := KV.matchSegs_lit.mp h₃
  obtain ⟨b, xs₅, params₅, rfl, rfl, h₅⟩ := KV.matchSegs_param.mp h₄
  obtain ⟨xs₆, rfl, h₆⟩ := KV.matchSegs_lit.mp h₅
  obtain ⟨rfl, rfl⟩ := KV.matchSegs_nil.mp h₆
  exact ⟨p, b, hs, rfl⟩

omit [SerdeJson] [Hashing] in
/-- What follows of the path, whatever the parameters are. -/
theorem dataPlane_path {p b : String} (hs : segments path = ["", "v1", "projects", p, "branches", b, name])
    (hname : name = "snapshot" ∨ name = "config" ∨ name = "watch") :
    path ∉ openPaths ∧ startsWith "/api/v1/" path = false ∧ startsWith "/v1/" path ∧
      (endsWith "/config" path → name = "config") ∧ ∀ q, dataPlaneProjectSegment path = some q → q = p ∧ plainName p := by
  obtain ⟨c, hpath, hc⟩ := KV.eq_under_of_segments ["", "v1", "projects", p, "branches", b] hs
  obtain ⟨-, rfl⟩ := KV.segments_singleton_iff.mp hc
  refine ⟨fun hm => ?_, ?_, ?_, fun hends => ?_, fun q hq => ?_⟩
  · have hnot : ∀ q ∈ openPaths, (segments q)[1]? ≠ some "v1" := by decide +kernel
    exact hnot path hm (by rw [hs]; rfl)
  · by_contra h
    obtain ⟨rest, hr⟩ := segments_of_startsWith_stem ["", "api", "v1"] (by simp [KV.Plain]) (Bool.not_eq_false _ |>.mp h)
    rw [hs] at hr
    simp at hr
  · rw [hpath]
    exact startsWith_iff.mpr (by simp [KV.under])
  · have hplain : KV.Plain "config" := by simp [KV.Plain]
    obtain ⟨init, hinit⟩ := KV.segments_of_suffix hplain (List.isSuffixOf_iff_suffix.mp hends)
    have hlast := congrArg List.getLast? (hs.symm.trans hinit)
    simpa using hlast
  · obtain ⟨hplain, tail, ht⟩ := dataPlaneProjectSegment_some hq
    rw [hs] at ht
    cases ht
    exact ⟨rfl, hplain⟩

end

/-! ## What the endpoints give out -/

section
variable {branch : BranchName} {version : Nat} {ctx : ClientCtx} {t : Store} {snap : ConfigSnapshot} {st st' : State}

omit [Hashing] in
theorem getConfig_project (h : (getConfig pid branch version).exec st = (.ok snap, st')) : snap.project = pid := by
  unfold getConfig at h
  obtain ⟨_, _, -, h₁⟩ := KV.Prog.exec_bind_ok.mp h
  obtain ⟨_, _, -, h₂⟩ := KV.Prog.exec_bind_ok.mp h₁
  obtain ⟨_, _, -, h₃⟩ := KV.Prog.exec_bind_ok.mp h₂
  obtain ⟨_, _, -, h₄⟩ := KV.Prog.exec_bind_ok.mp h₃
  rw [← (pure_ok.mp h₄).1]

omit [Hashing] in
theorem getConfigResolved_project (h : (getConfigResolved pid branch version ctx).exec st = (.ok snap, st')) :
    snap.project = pid := by
  unfold getConfigResolved at h
  split at h
  · exact getConfig_project h
  · obtain ⟨r, _, -, h₁⟩ := KV.Prog.exec_bind_ok.mp h
    cases r with
    | stable v => exact getConfig_project h₁
    | gray seq =>
      obtain ⟨_, _, -, h₂⟩ := KV.Prog.exec_bind_ok.mp h₁
      obtain ⟨_, _, -, h₃⟩ := KV.Prog.exec_bind_ok.mp h₂
      obtain ⟨_, _, -, h₄⟩ := KV.Prog.exec_bind_ok.mp h₃
      rw [← (pure_ok.mp h₄).1]

omit [Hashing] in
theorem snapshot_project {resp : ConfigResp} (h : snapshot cfg m req pid branch = .ok resp) : resp.project = pid := by
  unfold snapshot at h
  split at h
  · cases h
  · rename_i snap hsnap
    cases h
    exact getConfigResolved_project (Prod.ext hsnap rfl)

end

omit [SerdeJson] [Hashing] in
theorem applySecretPolicy_masked (decrypt decrypt' : Ciphertext → Option String) (groups : SnapshotMap) :
    applySecretPolicy decrypt false groups = applySecretPolicy decrypt' false groups := by
  simp [applySecretPolicy]

/-- A document is of its project, and what is revealed is revealed for a credential. -/
theorem renderConfig_ok {q : RenderQuery} {branch : BranchName} {doc : Document}
    (h : renderConfig cfg m req q pid branch = .ok doc) (hp : ∀ p, dataPlaneProjectSegment req.path = some p → p = pid) :
    doc.project = pid ∧ (q.reveal ∨ doc.revealed → TokenFor cfg m (extractDataToken req) pid ∨ SessionFor m req pid) ∧
      (doc.revealed = false → ∀ decrypt, renderConfig { cfg with decrypt } m req q pid branch = .ok doc) := by
  have hauth : ∀ decrypt, dataPlaneAuthorized { cfg with decrypt } m req = dataPlaneAuthorized cfg m req := fun _ => rfl
  unfold renderConfig at h
  simp only at h
  split at h
  · cases h
  rename_i h₁
  split at h
  · cases h
  rename_i h₂
  split at h
  · cases h
  rename_i snap hsnap
  cases h
  refine ⟨rfl, fun hreveal => ?_, fun hmasked decrypt => ?_⟩
  · by_cases hdata : dataPlaneAuthorized cfg m req
    · exact .inl (dataPlaneAuthorized_token hdata hp)
    · have hq : q.reveal := by simpa [hdata] using hreveal
      have hok : sessionOk (resolvePrincipal m.now (headerText req.authorization) m.store) (some pid) := by
        simpa [hq, hdata] using h₂
      exact .inr (sessionFor_of_sessionOk hok fun p e => (Option.some.inj e).symm)
  · obtain ⟨hq, hdata⟩ := Bool.or_eq_false_iff.mp hmasked
    unfold renderConfig
    simp [hauth, hq, hdata, hsnap, applySecretPolicy_masked decrypt cfg.decrypt]

/-! ## What the answers are made of -/

section
variable {t t' : Store}

section
omit [Hashing]
variable (branch : BranchName) (h : SameRows pid t t')
include h

theorem grpcEvents_congr (after : Nat) (hist : List VersionRecord) :
    ∀ prev, grpcEvents t pid branch after hist prev = grpcEvents t' pid branch after hist prev := by
  induction hist with
  | nil => exact fun _ => rfl
  | cons r hist ih =>
    intro prev
    simp only [grpcEvents, ih, (branchSnapshot_within pid branch r.no).eval_congr h]

theorem sseEvents_congr (after : Nat) (hist : List VersionRecord) :
    ∀ prev, sseEvents t pid branch after hist prev = sseEvents t' pid branch after hist prev := by
  induction hist with
  | nil => exact fun _ => rfl
  | cons r hist ih =>
    intro prev
    simp only [sseEvents, ih, (branchSnapshot_within pid branch r.no).eval_congr h]

theorem grpcStream_congr (after : Nat) : grpcStream t pid branch after = grpcStream t' pid branch after := by
  simp only [grpcStream, grpcReplay, grpcEvents_congr branch h, (versionHistory_within pid branch).eval_congr h]

theorem sseStream_congr (after : Nat) : sseStream t pid branch after = sseStream t' pid branch after := by
  simp only [sseStream, sseReplay, sseEvents_congr branch h, (versionHistory_within pid branch).eval_congr h]

end

/-- An endpoint answers from the rows of the project, and from its checks. -/
theorem serveEndpoint_congr {branch : BranchName} {handler : Handler} {reply : DataReply}
    (h : serveEndpoint x cfg m req pid branch handler = .ok reply) (hrows : SameRows pid m.store t')
    (hchecks : reply.IsDocument → SameChecks cfg req m t') :
    serveEndpoint x cfg { m with store := t' } req pid branch handler = .ok reply := by
  cases handler with
  | snapshot =>
    simp only [serveEndpoint, snapshot, ← (getConfigResolved_within pid branch 0 _).eval_congr hrows]
    exact h
  | watchBranch =>
    simp only [serveEndpoint, ← sseStream_congr branch hrows]
    exact h
  | renderConfig =>
    simp only [serveEndpoint] at h ⊢
    split at h
    · cases h
    rename_i q hq
    obtain ⟨doc, hdoc, rfl⟩ := Result.map_ok.mp h
    obtain ⟨hdata, hprincipal⟩ := hchecks trivial
    simp only [renderConfig, hdata, hprincipal, ← (getConfig_within pid branch q.version).eval_congr hrows]
    exact h
  | _ => cases h

theorem serveGrpc_congr {call : GrpcCall} (method : GrpcMethod) (hrows : SameRows call.project m'.store t') :
    serveGrpc cfg m { m' with store := t' } call method = serveGrpc cfg m m' call method := by
  have hresolved : call.resolved { m' with store := t' } = call.resolved m' := by
    simp only [GrpcCall.resolved, (getConfigResolved_within call.project call.branch _ _).eval_congr hrows]
  cases method with
  | getConfig => simp only [serveGrpc, grpcGetConfig, hresolved]
  | getItem => simp only [serveGrpc, grpcGetItem, hresolved]
  | watch => simp only [serveGrpc, grpcWatch, grpcStream_congr call.branch hrows]

end

theorem serveData_ok {reply : DataReply} : serveData x cfg m m' req = .ok reply ↔
    ∃ u handler params pid branch, authMiddleware cfg m req = .ok u ∧
      dispatch (routes cfg.clustered) req.method req.path = some (handler, params) ∧
      (params.lookup "p").bind x.decode = some pid ∧ (params.lookup "b").bind x.decode = some branch ∧
      serveEndpoint x cfg m' req pid branch handler = .ok reply := by
  unfold serveData
  rw [Result.bind_ok]
  constructor
  · intro ⟨u, hu, h⟩
    split at h
    · cases h
    rename_i handler params hd
    split at h
    · rename_i pid branch hpid hbranch
      exact ⟨u, handler, params, pid, branch, hu, hd, hpid, hbranch, h⟩
    · cases h
  · intro ⟨u, handler, params, pid, branch, hu, hd, hpid, hbranch, h⟩
    refine ⟨u, hu, ?_⟩
    simp [hd, hpid, hbranch, h]

theorem authMiddleware_data {u : Option Principal} (h : authMiddleware cfg m req = .ok u) (hopen : req.path ∉ openPaths)
    (hapi : startsWith "/api/v1/" req.path = false) (hv1 : startsWith "/v1/" req.path) :
    dataPlaneAuthorized cfg m req ∨ endsWith "/config" req.path ∧ ("reveal=true" ∈ queryParts req.query ∨
      sessionOk (resolvePrincipal m.now (headerText req.authorization) m.store) (dataPlaneProjectSegment req.path)) := by
  unfold authMiddleware at h
  simp only [hopen, hapi, hv1, if_false, if_true, Bool.false_eq_true] at h
  split at h
  · rename_i hc
    by_cases hend : endsWith "/config" req.path
    · by_cases hdata : dataPlaneAuthorized cfg m req
      · exact .inl hdata
      · simp only [hend, hdata, Bool.true_and, Bool.or_false, Bool.or_eq_true, decide_eq_true_eq, Bool.and_eq_true] at hc
        exact .inr ⟨hend, hc.imp_right And.right⟩
    · simp only [hend, Bool.false_and, Bool.false_or] at hc
      exact .inl hc
  · cases h

omit [SerdeJson] [Hashing] in
theorem endpointName_cases {handler : Handler} {name : String} (h : endpointName handler = some name) :
    name = "snapshot" ∨ name = "config" ∨ name = "watch" := by
  unfold endpointName at h
  split at h <;> simp_all

theorem middleware_project {u : Option Principal} {handler : Handler} {params : List (String × String)} {name : String}
    (hu : authMiddleware cfg m req = .ok u) (hd : dispatch (routes cfg.clustered) req.method req.path = some (handler, params))
    (hname : endpointName handler = some name) (hpid : (params.lookup "p").bind x.decode = some pid) :
    (∀ q, dataPlaneProjectSegment req.path = some q → q = pid) ∧ (TokenFor cfg m (extractDataToken req) pid ∨
      name = "config" ∧ ("reveal=true" ∈ queryParts req.query ∨ SessionFor m req pid)) := by
  obtain ⟨p, b, hs, rfl⟩ := dispatch_dataPlane hd hname
  obtain ⟨hopen, hapi, hv1, hconfig, hseg⟩ := dataPlane_path hs (endpointName_cases hname)
  have hproject : ∀ q, dataPlaneProjectSegment req.path = some q → q = pid := by
    intro q hq
    obtain ⟨rfl, hplain⟩ := hseg q hq
    rw [List.lookup_cons_self, Option.bind_some, x.decode_plain (not_percent_of_plainName hplain)] at hpid
    exact Option.some.inj hpid
  refine ⟨hproject, ?_⟩
  rcases authMiddleware_data hu hopen hapi hv1 with htoken | ⟨hend, hreveal | hsession⟩
  · exact .inl (dataPlaneAuthorized_token htoken hproject)
  · exact .inr ⟨hconfig hend, .inl hreveal⟩
  · exact .inr ⟨hconfig hend, .inr (sessionFor_of_sessionOk hsession hproject)⟩

/-- Whoever is given configuration of a project has a credential for it, and what is given is made of rows of
that project: with any other rows beside them the answer is the same. Secrets are decrypted in documents only,
and nothing else depends on the cipher. -/
theorem data_plane_access (x : Extractors) (cfg : ApiConfig) (m m' : Moment) (req : Request) (call : GrpcCall) :
    (∀ reply, serveData x cfg m m' req = .ok reply →
      (TokenFor cfg m (extractDataToken req) reply.project ∨ reply.IsDocument ∧ (SessionFor m req reply.project ∨
        TokenFor cfg m' (extractDataToken req) reply.project ∨ SessionFor m' req reply.project)) ∧
      (∀ t', SameRows reply.project m'.store t' → (reply.IsDocument → SameChecks cfg req m' t') →
        serveData x cfg m { m' with store := t' } req = .ok reply) ∧
      ((∀ decrypt, serveData x { cfg with decrypt } m m' req = .ok reply) ∨ reply.IsDocument ∧
        (TokenFor cfg m' (extractDataToken req) reply.project ∨ SessionFor m' req reply.project))) ∧
    ∀ method answer, serveGrpc cfg m m' call method = .ok answer →
      TokenFor cfg m (bearer call.authorization) call.project ∧
        (∀ t', SameRows call.project m'.store t' → serveGrpc cfg m { m' with store := t' } call method = .ok answer) ∧
        ∀ decrypt, serveGrpc { cfg with decrypt } m m' call method = .ok answer := by
  refine ⟨fun reply h => ?_, fun method answer h => ⟨serveGrpc_token h, fun t' hrows => ?_, fun decrypt => ?_⟩⟩
  · obtain ⟨u, handler, params, pid, branch, hu, hd, hpid, hbranch, hserve⟩ := serveData_ok.mp h
    have hother : ∀ decrypt, serveEndpoint x { cfg with decrypt } m' req pid branch handler = .ok reply →
        serveData x { cfg with decrypt } m m' req = .ok reply := fun decrypt hr =>
      serveData_ok.mpr ⟨u, handler, params, pid, branch, hu, hd, hpid, hbranch, hr⟩
    have hcongr : ∀ t', SameRows pid m'.store t' → (reply.IsDocument → SameChecks cfg req m' t') →
        serveData x cfg m { m' with store := t' } req = .ok reply := fun t' hrows hchecks =>
      serveData_ok.mpr ⟨u, handler, params, pid, branch, hu, hd, hpid, hbranch, serveEndpoint_congr hserve hrows hchecks⟩
    cases handler with
    | snapshot =>
      obtain ⟨-, htoken | ⟨e, -⟩⟩ := middleware_project hu hd rfl hpid
      · obtain ⟨resp, hresp, rfl⟩ := Result.map_ok.mp hserve
        obtain rfl := snapshot_project hresp
        refine ⟨.inl htoken, hcongr, .inl fun decrypt => hother decrypt ?_⟩
        simp only [serveEndpoint, snapshot, applySecretPolicy_masked decrypt cfg.decrypt]
        exact hserve
      · exact absurd e (by decide)
    | watchBranch =>
      obtain ⟨-, htoken | ⟨e, -⟩⟩ := middleware_project hu hd rfl hpid
      · have hproject : reply.project = pid := by
          simp only [serveEndpoint] at hserve
          split at hserve
          · cases hserve
          · cases hserve
            rfl
        rw [hproject]
        exact ⟨.inl htoken, hcongr, .inl fun decrypt => hother decrypt hserve⟩
      · exact absurd e (by decide)
    | renderConfig =>
      obtain ⟨hproject, haccess⟩ := middleware_project hu hd rfl hpid
      simp only [serveEndpoint] at hserve
      split at hserve
      · cases hserve
      rename_i q hq
      obtain ⟨doc, hdoc, rfl⟩ := Result.map_ok.mp hserve
      obtain ⟨rfl, hreveal, hmasked⟩ := renderConfig_ok hdoc hproject
      refine ⟨?_, hcongr, ?_⟩
      · rcases haccess with htoken | ⟨-, hraw | hsession⟩
        · exact .inl htoken
        · exact .inr ⟨trivial, .inr (hreveal (.inl (x.renderQuery_reveal hraw hq)))⟩
        · exact .inr ⟨trivial, .inl hsession⟩
      · by_cases hr : doc.revealed
        · exact .inr ⟨trivial, hreveal (.inr hr)⟩
        · refine .inl fun decrypt => hother decrypt ?_
          simp only [serveEndpoint, hq, hmasked (Bool.not_eq_true _ |>.mp hr) decrypt]
          rfl
    | _ => cases hserve
  · rw [serveGrpc_congr method hrows]
    exact h
  · cases method <;> exact h

end

section
attribute [local instance] sampleJson sampleHashing

def sampleExtractors : Extractors where
  decode s := if '%' ∈ s.toList then none else some s
  renderQuery query := some { reveal := "reveal=true" ∈ queryParts query }
  watchQuery _ := some 0
  decode_plain hs := if_neg hs
  renderQuery_reveal hm h := by
    cases h
    simpa using hm

def shopMoment : Moment where
  store := runLog [
    (.projectCreate "shop" "" 0 none, 1),
    (.projectCreate "bank" "" 0 none, 2),
    (.structureDraftSet "shop" 1 oneItem "", 3),
    (.publishStructure "shop" "" "r" "" 0 .block, 4),
    (.projectTokenCreate "shop" "ci" "k" "admin" 5, 5)]
  now := 6

def shopRequest : Request where
  method := "GET"
  path := "/v1/projects/shop/branches/dev/snapshot"
  authorization := some "Bearer k"

/-- The snapshot of the one project does not change with a branch of the other. -/
theorem data_plane_access_sample :
    ∃ reply, serveData sampleExtractors { decrypt := fun _ => none } shopMoment shopMoment shopRequest = .ok reply ∧
      TokenFor { decrypt := fun _ => none } shopMoment (some "k") "shop" ∧
      serveData sampleExtractors { decrypt := fun _ => none } shopMoment
        { shopMoment with store := shopMoment.store.erase (branchStateKey "bank" "dev") } shopRequest = .ok reply := by
  cases h : serveData sampleExtractors { decrypt := fun _ => none } shopMoment shopMoment shopRequest with
  | error e =>
    have hok : (serveData sampleExtractors { decrypt := fun _ => none } shopMoment shopMoment shopRequest).toOption.isSome := by
      decide +kernel
    rw [h] at hok
    cases hok
  | ok reply =>
    obtain ⟨haccess, hsame, -⟩ := (data_plane_access _ _ _ _ _ { authorization := none, project := "shop", branch := "dev" }).1 _ h
    have hreply : (serveData sampleExtractors { decrypt := fun _ => none } shopMoment shopMoment shopRequest).toOption.all
        fun reply => reply.project = "shop" ∧ ¬ reply.IsDocument := by
      decide +kernel
    rw [h] at hreply
    obtain ⟨hproject, hdoc⟩ : reply.project = "shop" ∧ ¬ reply.IsDocument := of_decide_eq_true hreply
    rw [hproject] at haccess hsame
    refine ⟨reply, rfl, haccess.resolve_right fun h => hdoc h.1, hsame _ (fun k hk => ?_) fun h => absurd h hdoc⟩
    -- the row that is missing is of the other project
    refine (KV.getElem?_erase_ne _ ?_).symm
    rintro rfl
    exact absurd (rowOf_unique rowOf_branchStateKey hk (by simp [KV.Plain]) (by simp [KV.Plain])) (by decide)

end

end Defing
