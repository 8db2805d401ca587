import Defing.Core.Keys
import Defing.Lib.Path

/-!
# Keys as paths

The segments of every key. Equations between keys are decided by rewriting
with these lemmas: two keys of different kinds have different segments, and
two keys of one kind the same ones only if their arguments agree.
-/

namespace Defing

open KV (Plain segments segments_of segments_plain plain_repr under)

variable {id : ProjectId} {b : BranchName}

/-! ## Projects and branches -/

section
variable (hi : Plain id)
include hi

theorem segments_projectKey : segments (projectKey id) = ["p", id] := by
  rw [segments_of ["p"] id (by simp [under, projectKey, kProject]) (by simp_all [Plain])]
  simp [segments_plain hi]

theorem segments_structKey : segments (structKey id) = ["p", id, "struct"] := by
  rw [segments_of ["p", id] "struct" (by simp [under, structKey, kProject, kStruct]) (by simp_all [Plain])]
  simp [segments_plain (by simp [Plain] : Plain "struct")]

theorem segments_structDraftKey : segments (structDraftKey id) = ["p", id, "struct-draft"] := by
  rw [segments_of ["p", id] "struct-draft" (by simp [under, structDraftKey, kProject, kStructDraft]) (by simp_all [Plain])]
  simp [segments_plain (by simp [Plain] : Plain "struct-draft")]

variable (hb : Plain b)
include hb

theorem segments_branchStateKey : segments (branchStateKey id b) = ["p", id, "b", b, "state"] := by
  rw [segments_of ["p", id, "b", b] "state" (by simp [under, branchStateKey, kProject, kBranch, kState]) (by simp_all [Plain])]
  simp [segments_plain (by simp [Plain] : Plain "state")]

theorem segments_versionKey (n : Nat) : segments (versionKey id b n) = ["p", id, "b", b, "v", n.repr] := by
  rw [segments_of ["p", id, "b", b, "v"] (n.repr) (by simp [under, versionKey, kProject, kBranch, kVersion]) (by simp_all [Plain])]
  simp [segments_plain (plain_repr n)]

theorem segments_snapshotKey (n : Nat) :
    segments (snapshotKey id b n) = ["p", id, "b", b, "v", n.repr, "snap"] := by
  have hn := plain_repr n
  rw [segments_of ["p", id, "b", b, "v", n.repr] "snap" (by simp [under, snapshotKey, kProject, kBranch, kVersion])
    (by simp_all [Plain])]
  simp [segments_plain (by simp [Plain] : Plain "snap")]

theorem segments_diffKey (n : Nat) :
    segments (diffKey id b n) = ["p", id, "b", b, "v", n.repr, "diff"] := by
  have hn := plain_repr n
  rw [segments_of ["p", id, "b", b, "v", n.repr] "diff" (by simp [under, diffKey, kProject, kBranch, kVersion])
    (by simp_all [Plain])]
  simp [segments_plain (by simp [Plain] : Plain "diff")]

theorem segments_graySnapKey (n : Nat) : segments (graySnapKey id b n) = ["p", id, "b", b, "gray-snap", n.repr] := by
  rw [segments_of ["p", id, "b", b, "gray-snap"] (n.repr) (by simp [under, graySnapKey, kProject, kBranch, kGraySnap]) (by simp_all [Plain])]
  simp [segments_plain (plain_repr n)]

end

/-! ## Everything else -/

theorem segments_sharedKey (key : String) : segments (sharedKey key) = "sh" :: segments key :=
  segments_of ["sh"] key (by simp [under, sharedKey, kShared]) (by simp_all [Plain])

theorem segments_sharedDraftKey (key : String) : segments (sharedDraftKey key) = "sh-draft" :: segments key :=
  segments_of ["sh-draft"] key (by simp [under, sharedDraftKey, kSharedDraft]) (by simp_all [Plain])

theorem segments_idxPname (name : String) : segments (idxPname name) = "idx" :: "pname" :: segments name :=
  segments_of ["idx", "pname"] name (by simp [under, idxPname, kIdxPname]) (by simp_all [Plain])

theorem segments_sessionKey : segments sessionKey = ["sess", "admin"] := by
  rw [segments_of ["sess"] "admin" (by simp [under, sessionKey, kSession]) (by simp_all [Plain])]
  simp [segments_plain (by simp [Plain] : Plain "admin")]

theorem segments_kAdminPw : segments kAdminPw = ["sess", "admin-pw"] := by
  rw [segments_of ["sess"] "admin-pw" (by simp [under, kAdminPw]) (by simp_all [Plain])]
  simp [segments_plain (by simp [Plain] : Plain "admin-pw")]

theorem segments_sessionKeyWith (sid : String) : segments (sessionKeyWith sid) = "sess" :: "admin" :: segments sid :=
  segments_of ["sess", "admin"] sid (by simp [under, sessionKeyWith, kSessionPrefix]) (by simp_all [Plain])

theorem segments_paSessionKey (u : String) : segments (paSessionKey u) = "sess" :: "pa" :: segments u :=
  segments_of ["sess", "pa"] u (by simp [under, paSessionKey, kPaSession]) (by simp_all [Plain])

theorem segments_paSessionKeyWith (u sid : String) :
    segments (paSessionKeyWith u sid) = "sess" :: "pa" :: segments (u ++ "/" ++ sid) :=
  segments_of ["sess", "pa"] (u ++ "/" ++ sid) (by simp [under, paSessionKeyWith, kPaSession]) (by simp_all [Plain])

theorem segments_gaSessionKeyWith (u sid : String) :
    segments (gaSessionKeyWith u sid) = "sess" :: "ga" :: segments (u ++ "/" ++ sid) :=
  segments_of ["sess", "ga"] (u ++ "/" ++ sid) (by simp [under, gaSessionKeyWith, kGaSession]) (by simp_all [Plain])

theorem segments_projectAdminKey (u : String) : segments (projectAdminKey u) = "adm" :: "pa" :: segments u :=
  segments_of ["adm", "pa"] u (by simp [under, projectAdminKey, kPaAccount]) (by simp_all [Plain])

theorem segments_globalAdminKey (u : String) : segments (globalAdminKey u) = "adm" :: "ga" :: segments u :=
  segments_of ["adm", "ga"] u (by simp [under, globalAdminKey, kGaAccount]) (by simp_all [Plain])

theorem segments_dataTokenKey (hash : String) : segments (dataTokenKey hash) = "tok" :: segments hash :=
  segments_of ["tok"] hash (by simp [under, dataTokenKey, kDataToken]) (by simp_all [Plain])

theorem segments_kAuditSeq : segments kAuditSeq = ["audit", "seq"] := by
  rw [segments_of ["audit"] "seq" (by simp [under, kAuditSeq]) (by simp_all [Plain])]
  simp [segments_plain (by simp [Plain] : Plain "seq")]

theorem segments_auditKey (seq : Nat) : segments (auditKey seq) = "audit" :: segments (pad20 seq) := by
  rw [segments_of ["audit"] (pad20 seq) (by simp [under, auditKey, kAudit]) (by simp_all [Plain])]
  simp

end Defing
