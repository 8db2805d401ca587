import Defing.Core.Model

/-!
# Keys of the store

The key constructors, as the source concatenates them. A byte of a key stands
for itself: the store compares and scans keys as UTF-8, whose order and
substrings are those of the characters.
-/

namespace Defing

def kProject : String := "p/"
def kStruct : String := "/struct"
def kStructDraft : String := "/struct-draft"
def kBranch : String := "/b/"
def kState : String := "/state"
def kVersion : String := "/v/"
def kShared : String := "sh/"
def kSharedDraft : String := "sh-draft/"
def kSession : String := "sess/admin"
def kAdminPw : String := "sess/admin-pw"
def kAudit : String := "audit/"
def kAuditSeq : String := "audit/seq"
def kIdxPname : String := "idx/pname/"
def kPaAccount : String := "adm/pa/"
def kGaAccount : String := "adm/ga/"
def kDataToken : String := "tok/"
def kPaSession : String := "sess/pa/"
def kGaSession : String := "sess/ga/"
def kGraySnap : String := "/gray-snap/"
def kSessionPrefix : String := "sess/admin/"

def dataTokenKey (hash : String) : String := kDataToken ++ hash

def projectKey (id : ProjectId) : String := kProject ++ id

def structKey (id : ProjectId) : String := kProject ++ id ++ kStruct

def structDraftKey (id : ProjectId) : String := kProject ++ id ++ kStructDraft

def branchPrefix (id : ProjectId) (branch : BranchName) : String := kProject ++ id ++ kBranch ++ branch

def branchStateKey (id : ProjectId) (branch : BranchName) : String :=
  kProject ++ id ++ kBranch ++ branch ++ kState

def versionKey (id : ProjectId) (branch : BranchName) (no : Nat) : String :=
  kProject ++ id ++ kBranch ++ branch ++ kVersion ++ toString no

def snapshotKey (id : ProjectId) (branch : BranchName) (no : Nat) : String :=
  kProject ++ id ++ kBranch ++ branch ++ kVersion ++ toString no ++ "/snap"

def diffKey (id : ProjectId) (branch : BranchName) (no : Nat) : String :=
  kProject ++ id ++ kBranch ++ branch ++ kVersion ++ toString no ++ "/diff"

def graySnapKey (id : ProjectId) (branch : BranchName) (seq : Nat) : String :=
  kProject ++ id ++ kBranch ++ branch ++ kGraySnap ++ toString seq

def sharedKey (key : String) : String := kShared ++ key

def sharedDraftKey (key : String) : String := kSharedDraft ++ key

def sessionKey : String := kSession

def sessionKeyWith (sid : String) : String := kSessionPrefix ++ sid

def projectAdminKey (username : String) : String := kPaAccount ++ username

def paSessionKey (username : String) : String := kPaSession ++ username

def paSessionPrefix (username : String) : String := kPaSession ++ username ++ "/"

def paSessionKeyWith (username sid : String) : String := kPaSession ++ username ++ "/" ++ sid

def globalAdminKey (username : String) : String := kGaAccount ++ username

def gaSessionPrefix (username : String) : String := kGaSession ++ username ++ "/"

def gaSessionKeyWith (username sid : String) : String := kGaSession ++ username ++ "/" ++ sid

def pad20 (seq : Nat) : String :=
  String.ofList (List.replicate (20 - (toString seq).length) '0') ++ toString seq

def auditKey (seq : Nat) : String := kAudit ++ pad20 seq

def idxPname (name : String) : String := kIdxPname ++ name

example : branchStateKey "order-service" "prod" = "p/order-service/b/prod/state" := by decide +kernel
example : auditKey 7 = "audit/00000000000000000007" := by decide +kernel

end Defing
