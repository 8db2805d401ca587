import Defing.Lib.Routes

/-! # The routes of the server -/

namespace Defing

open KV (Seg Route)

inductive Handler
  | health | readyz | metrics | adminIndex | adminStatic
  | login | logout | heartbeat | changeMyPassword | auditList
  | rotateMasterKey | adminForceLogout | adminSetPassword | adminResetPassword | adminSnapshot | adminRetentionStatus
  | listGlobalAdmins | createGlobalAdmin | deleteGlobalAdmin | setGlobalAdminPassword
  | listProjects | createProject | projectDetail | deleteProject
  | listProjectAdmins | createProjectAdmin | deleteProjectAdmin | setProjectAdminPassword
  | listProjectTokens | createProjectToken | deleteProjectToken
  | listBranches | createBranch | branchDetail | deleteBranch | branchDiff | promote
  | grayPublishBranch | grayPromoteBranch | grayAbortBranch | grayStatus
  | listShared | createShared | listSharedDrafts | updateSharedDraft | publishShared | deleteShared | deleteSharedDraft
  | getStructureDraft | setStructureDraft | publishStructure | getPublishedStructure
  | updateDraft | publish | rollback | adminConfig | versionHistory
  | snapshot | renderConfig | watchBranch
  | clusterMembers | clusterJoin | clusterPromote | clusterRemove
  deriving DecidableEq

def onGet (h : Handler) : List (String × Handler) := [("GET", h), ("HEAD", h)]

def onPost (h : Handler) : List (String × Handler) := [("POST", h)]

def onPut (h : Handler) : List (String × Handler) := [("PUT", h)]

def onDelete (h : Handler) : List (String × Handler) := [("DELETE", h)]

def apiRoute (tail : List Seg) : List Seg := .lit "api" :: .lit "v1" :: tail

def projectRoute (tail : List Seg) : List Seg := apiRoute (.lit "projects" :: .param "p" :: tail)

def branchRoute (tail : List Seg) : List Seg := projectRoute (.lit "branches" :: .param "b" :: tail)

def dataPlaneRoute (name : String) : List Seg :=
  [.lit "v1", .lit "projects", .param "p", .lit "branches", .param "b", .lit name]

def managementRoutes : List (Route Handler) := [
  ⟨apiRoute [.lit "login"], onPost .login⟩,
  ⟨apiRoute [.lit "logout"], onPost .logout⟩,
  ⟨apiRoute [.lit "heartbeat"], onPost .heartbeat⟩,
  ⟨apiRoute [.lit "me", .lit "password"], onPost .changeMyPassword⟩,
  ⟨apiRoute [.lit "audit"], onGet .auditList⟩,
  ⟨apiRoute [.lit "admin", .lit "rotate-master-key"], onPost .rotateMasterKey⟩,
  ⟨apiRoute [.lit "admin", .lit "force-logout"], onPost .adminForceLogout⟩,
  ⟨apiRoute [.lit "admin", .lit "set-password"], onPost .adminSetPassword⟩,
  ⟨apiRoute [.lit "admin", .lit "reset-password"], onPost .adminResetPassword⟩,
  ⟨apiRoute [.lit "admin", .lit "snapshot"], onGet .adminSnapshot⟩,
  ⟨apiRoute [.lit "admin", .lit "retention-status"], onGet .adminRetentionStatus⟩,
  ⟨apiRoute [.lit "admins"], onGet .listGlobalAdmins ++ onPost .createGlobalAdmin⟩,
  ⟨apiRoute [.lit "admins", .param "u"], onDelete .deleteGlobalAdmin ++ onPut .setGlobalAdminPassword⟩,
  ⟨apiRoute [.lit "projects"], onGet .listProjects ++ onPost .createProject⟩,
  ⟨projectRoute [.lit "admins"], onGet .listProjectAdmins ++ onPost .createProjectAdmin⟩,
  ⟨projectRoute [.lit "tokens"], onGet .listProjectTokens ++ onPost .createProjectToken⟩,
  ⟨projectRoute [.lit "tokens", .param "id"], onDelete .deleteProjectToken⟩,
  ⟨projectRoute [.lit "admins", .param "u"], onDelete .deleteProjectAdmin ++ onPut .setProjectAdminPassword⟩,
  ⟨projectRoute [], onGet .projectDetail ++ onDelete .deleteProject⟩,
  ⟨projectRoute [.lit "branches"], onGet .listBranches ++ onPost .createBranch⟩,
  ⟨branchRoute [], onGet .branchDetail ++ onDelete .deleteBranch⟩,
  ⟨projectRoute [.lit "diff"], onGet .branchDiff⟩,
  ⟨projectRoute [.lit "promote"], onPost .promote⟩,
  ⟨branchRoute [.lit "gray-publish"], onPost .grayPublishBranch⟩,
  ⟨branchRoute [.lit "gray-promote"], onPost .grayPromoteBranch⟩,
  ⟨branchRoute [.lit "gray-abort"], onPost .grayAbortBranch⟩,
  ⟨branchRoute [.lit "gray-status"], onGet .grayStatus⟩,
  ⟨apiRoute [.lit "shared"], onGet .listShared ++ onPost .createShared⟩,
  ⟨apiRoute [.lit "shared-draft"], onGet .listSharedDrafts ++ onPut .updateSharedDraft⟩,
  -- before the key, as literal segments go first
  ⟨apiRoute [.lit "shared", .lit "publish"], onPost .publishShared⟩,
  ⟨apiRoute [.lit "shared", .param "key"], onDelete .deleteShared⟩,
  ⟨apiRoute [.lit "shared-draft", .param "key"], onDelete .deleteSharedDraft⟩,
  ⟨projectRoute [.lit "structure-draft"], onGet .getStructureDraft ++ onPut .setStructureDraft⟩,
  ⟨projectRoute [.lit "structure-draft", .lit "publish"], onPost .publishStructure⟩,
  ⟨projectRoute [.lit "structure"], onGet .getPublishedStructure⟩,
  ⟨branchRoute [.lit "draft"], onPut .updateDraft⟩,
  ⟨branchRoute [.lit "publish"], onPost .publish⟩,
  ⟨branchRoute [.lit "rollback"], onPost .rollback⟩,
  ⟨branchRoute [.lit "config"], onGet .adminConfig⟩,
  ⟨branchRoute [.lit "versions"], onGet .versionHistory⟩]

def clusterRoutes : List (Route Handler) := [
  ⟨apiRoute [.lit "cluster", .lit "members"], onGet .clusterMembers⟩,
  ⟨apiRoute [.lit "cluster", .lit "join"], onPost .clusterJoin⟩,
  ⟨apiRoute [.lit "cluster", .lit "promote"], onPost .clusterPromote⟩,
  ⟨apiRoute [.lit "cluster", .lit "remove"], onPost .clusterRemove⟩]

/-- `build_router`; the routes of a cluster are there with Raft only. -/
def routes (clustered : Bool) : List (Route Handler) :=
  [⟨[.lit "healthz"], onGet .health⟩, ⟨[.lit "readyz"], onGet .readyz⟩, ⟨[.lit "metrics"], onGet .metrics⟩,
    ⟨[.lit "admin"], onGet .adminIndex⟩, ⟨[.lit "admin", .rest "path"], onGet .adminStatic⟩] ++
  managementRoutes ++
  [⟨dataPlaneRoute "snapshot", onGet .snapshot⟩, ⟨dataPlaneRoute "config", onGet .renderConfig⟩, ⟨dataPlaneRoute "watch", onGet .watchBranch⟩] ++
  if clustered then clusterRoutes else []

end Defing
